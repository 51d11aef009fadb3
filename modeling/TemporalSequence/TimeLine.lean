import TemporalSequence.Semantics

/-!
# A sequence on the rational time line

A sequence denotes a function of time that is defined between its timestamps too:
with step interpolation a segment keeps its start value until its end, with linear
interpolation it moves along the segment. `tsequence_value_at_timestamp` reads this
function at timestamps, whole numbers of microseconds, while the ever/always
operators answer for the function itself: a segment reaches the values between its
end values at the times between its timestamps, whether a timestamp falls there or
not.

This module extends the meaning of a sequence to the rational times of its span, and
proves that at a timestamp it is the value `TSequence.valueAt` gives.
-/

namespace TemporalSequence

variable {V B : Type} [DecidableEq V]

/-- Whether the period contains the time `t`, with its bound inclusivity. -/
def containsPeriodTime (p : Period) (t : ℚ) : Bool :=
  ((p.lower : ℚ) < t || (p.lowerInc && (p.lower : ℚ) == t)) &&
    (t < p.upper || (p.upperInc && t == p.upper))

lemma containsPeriodTime_iff {p : Period} {t : ℚ} :
    containsPeriodTime p t = true ↔
      ((p.lower : ℚ) < t ∨ p.lowerInc = true ∧ (p.lower : ℚ) = t) ∧
        (t < p.upper ∨ p.upperInc = true ∧ t = p.upper) := by
  simp only [containsPeriodTime, Bool.and_eq_true, Bool.or_eq_true, decide_eq_true_eq,
    beq_iff_eq]

lemma bounds_of_containsPeriodTime {p : Period} {t : ℚ} (h : containsPeriodTime p t = true) :
    (p.lower : ℚ) ≤ t ∧ t ≤ p.upper := by
  rcases containsPeriodTime_iff.mp h with ⟨h1 | ⟨-, h1⟩, h2 | ⟨-, h2⟩⟩ <;>
    exact ⟨by linarith, by linarith⟩

@[simp] lemma containsPeriodTime_intCast (p : Period) (t : ℤ) :
    containsPeriodTime p t = containsPeriodTimestamp p t := by
  rw [Bool.eq_iff_iff, containsPeriodTime_iff, containsPeriodTimestamp_iff]
  simp only [Int.cast_lt, Int.cast_inj]

/-- The value of the segment `inst1 -> inst2` at the time `t`, from `inst1.t` until
before `inst2.t`. -/
def segmentValueAtTime (bt : BaseType V) (inst1 inst2 : TInstant V) (linear : Bool) (t : ℚ) : V :=
  if inst1.value = inst2.value ∨ linear = false then inst1.value
  else bt.interpolate inst1.value inst2.value ((t - inst1.t) / (inst2.t - inst1.t))

/-- The value of an instant array at the time `t`: the value of the segment
`[t_i, t_(i+1))` containing `t`, or the value of the last instant at its timestamp. -/
def instantsValueAtTime (bt : BaseType V) (linear : Bool) : List (TInstant V) → ℚ → Option V
  | [], _ => none
  | [inst], t => if t = inst.t then some inst.value else none
  | inst1 :: inst2 :: rest, t =>
    if t < inst2.t then
      if (inst1.t : ℚ) ≤ t then some (segmentValueAtTime bt inst1 inst2 linear t) else none
    else instantsValueAtTime bt linear (inst2 :: rest) t

/-- The value of a sequence at the time `t`, defined on its span. -/
def TSequence.valueAtTime (bt : BaseType V) (seq : TSequence V B) (t : ℚ) : Option V :=
  if containsPeriodTime seq.period t then instantsValueAtTime bt seq.linear seq.instants t
  else none

/-- The sequence takes a value satisfying `p` at some time of its span. -/
def TSequence.EverAtTime (bt : BaseType V) (seq : TSequence V B) (p : V → Prop) : Prop :=
  ∃ t, containsPeriodTime seq.period t = true ∧ ∃ x, seq.valueAtTime bt t = some x ∧ p x

/-- The sequence takes a value satisfying `p` at every time of its span. -/
def TSequence.AlwaysAtTime (bt : BaseType V) (seq : TSequence V B) (p : V → Prop) : Prop :=
  ∀ t, containsPeriodTime seq.period t = true → ∃ x, seq.valueAtTime bt t = some x ∧ p x

section Instants

variable {bt : BaseType V} {linear : Bool}

lemma instantsValueAtTime_cons_cons (inst1 inst2 : TInstant V) (rest : List (TInstant V)) (t : ℚ) :
    instantsValueAtTime bt linear (inst1 :: inst2 :: rest) t =
      if t < inst2.t then
        if (inst1.t : ℚ) ≤ t then some (segmentValueAtTime bt inst1 inst2 linear t) else none
      else instantsValueAtTime bt linear (inst2 :: rest) t := rfl

lemma instantsValueAtTime_cons_of_le {inst next : TInstant V} {rest : List (TInstant V)} {t : ℚ}
    (h : (next.t : ℚ) ≤ t) :
    instantsValueAtTime bt linear (inst :: next :: rest) t =
      instantsValueAtTime bt linear (next :: rest) t := by
  rw [instantsValueAtTime_cons_cons, if_neg (not_lt.mpr h)]

lemma instantsValueAtTime_isSome {instants : List (TInstant V)} {t : ℚ} (hne : instants ≠ [])
    (h1 : (firstT instants : ℚ) ≤ t) (h2 : t ≤ lastT instants) :
    (instantsValueAtTime bt linear instants t).isSome := by
  induction instants with
  | nil => exact absurd rfl hne
  | cons inst rest ih =>
    match rest, ih, h2 with
    | [], _, h2 =>
      simp only [firstT_cons, lastT_singleton] at h1 h2
      simp [instantsValueAtTime, le_antisymm h2 h1]
    | inst2 :: rest, ih, h2 =>
      by_cases ht2 : t < inst2.t
      · simp [instantsValueAtTime_cons_cons, ht2, show (inst.t : ℚ) ≤ t by simpa using h1]
      · rw [instantsValueAtTime_cons_of_le (not_lt.mp ht2)]
        exact ih (List.cons_ne_nil _ _) (by simpa using ht2) (by simpa using h2)

/-- At a timestamp inside a segment, the value on the time line is the value
`tsequence_value_at_timestamp1` computes. -/
lemma segmentValueAtTime_intCast (hbt : linear = true → LawfulBaseType bt)
    {inst1 inst2 : TInstant V} {t : ℤ} (h1 : inst1.t ≤ t) (h2 : t < inst2.t) :
    segmentValueAtTime bt inst1 inst2 linear t = tsequenceValueAtTimestamp1 bt inst1 inst2 linear t := by
  unfold segmentValueAtTime
  split_ifs with hv
  · rcases hv with hv | rfl
    · exact (tsequenceValueAtTimestamp1_const hv).symm
    · exact (tsequenceValueAtTimestamp1_step h2).symm
  · obtain ⟨hne, hlin⟩ := not_or.mp hv
    rw [Bool.not_eq_false] at hlin
    subst hlin
    rw [tsequenceValueAtTimestamp1_eq_interpolate (hbt rfl) hne h1 h2.le]
    push_cast
    rfl

lemma instantsValueAtTime_intCast (hbt : linear = true → LawfulBaseType bt) :
    ∀ (instants : List (TInstant V)) (t : ℤ),
      instantsValueAtTime bt linear instants t = instantsValueAt bt linear instants t
  | [], _ => rfl
  | [inst], t => by simp [instantsValueAtTime, instantsValueAt]
  | inst1 :: inst2 :: rest, t => by
    rw [instantsValueAtTime_cons_cons, instantsValueAt_cons_cons,
      instantsValueAtTime_intCast hbt (inst2 :: rest)]
    simp only [Int.cast_lt, Int.cast_le]
    split_ifs with h2 h1
    · rw [segmentValueAtTime_intCast hbt h1 h2]
    all_goals rfl

end Instants

theorem TSequence.valueAtTime_intCast {bt : BaseType V} {seq : TSequence V B}
    (hbt : seq.linear = true → LawfulBaseType bt) (t : ℤ) :
    seq.valueAtTime bt t = seq.valueAt bt t := by
  simp only [TSequence.valueAtTime, TSequence.valueAt, containsPeriodTime_intCast,
    instantsValueAtTime_intCast hbt]

lemma TSequence.valueAtTime_isSome {bt : BaseType V} {seq : TSequence V B} (hwf : seq.WellFormed)
    {t : ℚ} (h : containsPeriodTime seq.period t = true) : (seq.valueAtTime bt t).isSome := by
  have hb := bounds_of_containsPeriodTime h
  rw [hwf.period] at hb
  simpa [TSequence.valueAtTime, h] using instantsValueAtTime_isSome hwf.nonempty hb.1 hb.2

lemma TSequence.alwaysAtTime_iff_not_everAtTime {bt : BaseType V} {seq : TSequence V B}
    (hwf : seq.WellFormed) (p : V → Prop) :
    seq.AlwaysAtTime bt p ↔ ¬seq.EverAtTime bt fun x => ¬p x := by
  simp only [TSequence.AlwaysAtTime, TSequence.EverAtTime, not_exists, not_and, not_not]
  refine ⟨fun h t ht x hx => ?_, fun h t ht => ?_⟩
  · obtain ⟨y, hy, hp⟩ := h t ht
    exact Option.some_injective _ (hx.symm.trans hy) ▸ hp
  · obtain ⟨x, hx⟩ := Option.isSome_iff_exists.mp (TSequence.valueAtTime_isSome hwf ht)
    exact ⟨x, hx, h t ht x hx⟩

end TemporalSequence
