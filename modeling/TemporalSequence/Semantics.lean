import TemporalSequence.Search
import TemporalSequence.Invariant
import Mathlib.Tactic.FieldSimp
import Mathlib.Tactic.Ring

/-!
# The function of time a sequence denotes

A sequence denotes a partial function from timestamps to values: on its period,
the value at `t` is the value of the segment `[t_i, t_(i+1))` containing `t`, read
by `tsequence_value_at_timestamp1`, or the value of the last instant. This is the
meaning against which the restriction and synchronization functions are proved.

Linear interpolation is exact on sub-segments when the interpolation of the base
type obeys the laws of `LawfulBaseType`, which the interpolation of floats and of
planar points do.
-/

namespace TemporalSequence

variable {V B : Type} [DecidableEq V]

/-- The laws of the interpolation of a base type with linear interpolation:
it starts and ends at the bounds of the segment, interpolating between two
interpolated values interpolates the segment, and distinct bounds give distinct
values at distinct fractions. -/
structure LawfulBaseType (bt : BaseType V) : Prop where
  interpolate_zero : ∀ v1 v2, bt.interpolate v1 v2 0 = v1
  interpolate_one : ∀ v1 v2, bt.interpolate v1 v2 1 = v2
  interpolate_interpolate : ∀ v1 v2 r1 r2 s,
    bt.interpolate (bt.interpolate v1 v2 r1) (bt.interpolate v1 v2 r2) s =
      bt.interpolate v1 v2 (r1 + (r2 - r1) * s)
  interpolate_injective : ∀ v1 v2 r1 r2, v1 ≠ v2 →
    bt.interpolate v1 v2 r1 = bt.interpolate v1 v2 r2 → r1 = r2

theorem tfloat_lawful (ε : ℚ) : LawfulBaseType (tfloat ε) where
  interpolate_zero _ _ := by simp [tfloat]
  interpolate_one _ _ := by simp [tfloat]
  interpolate_interpolate _ _ _ _ _ := by simp only [tfloat]; ring
  interpolate_injective v1 v2 r1 r2 hne h := by
    simp only [tfloat, add_right_inj] at h
    exact mul_left_cancel₀ (sub_ne_zero.mpr hne.symm) h

theorem tgeompoint_lawful (ε : ℚ) (hasz : Bool) (locatePoint : Point → Point → Point → ℚ × ℚ) :
    LawfulBaseType (tgeompoint ε hasz locatePoint) where
  interpolate_zero _ _ := by simp [tgeompoint, interpolatePoint]
  interpolate_one _ _ := by simp [tgeompoint, interpolatePoint]
  interpolate_interpolate _ _ _ _ _ := by
    simp only [tgeompoint, interpolatePoint, Point.mk.injEq]
    refine ⟨?_, ?_, ?_⟩ <;> ring
  interpolate_injective p1 p2 r1 r2 hne h := by
    simp only [tgeompoint, interpolatePoint, Point.mk.injEq, add_right_inj] at h
    obtain ⟨hx, hy, hz⟩ := h
    by_cases ex : p2.x - p1.x = 0
    · by_cases ey : p2.y - p1.y = 0
      · refine mul_left_cancel₀ (fun ez => hne ?_) hz
        cases p1; cases p2
        simp only [sub_eq_zero] at ex ey ez
        simp [ex, ey, ez]
      · exact mul_left_cancel₀ ey hy
    · exact mul_left_cancel₀ ex hx

/-- The value of an instant array at `t`, ignoring the bound flags: the value of the
segment `[t_i, t_(i+1))` containing `t`, or the value of the last instant at its
timestamp. -/
def instantsValueAt (bt : BaseType V) (linear : Bool) : List (TInstant V) → ℤ → Option V
  | [], _ => none
  | [inst], t => if t = inst.t then some inst.value else none
  | inst1 :: inst2 :: rest, t =>
    if t < inst2.t then
      if inst1.t ≤ t then some (tsequenceValueAtTimestamp1 bt inst1 inst2 linear t) else none
    else instantsValueAt bt linear (inst2 :: rest) t

/-- The value of a sequence at `t`, defined on its period. -/
def TSequence.valueAt (bt : BaseType V) (seq : TSequence V B) (t : ℤ) : Option V :=
  if containsPeriodTimestamp seq.period t then instantsValueAt bt seq.linear seq.instants t
  else none

/-- The value at `t` of the sequences a restriction returns: the value of the first
of them defined at `t`. -/
def sequencesValueAt (bt : BaseType V) (seqs : List (TSequence V B)) (t : ℤ) : Option V :=
  seqs.findSome? fun seq => seq.valueAt bt t

@[simp] lemma sequencesValueAt_nil (bt : BaseType V) (t : ℤ) :
    sequencesValueAt bt ([] : List (TSequence V B)) t = none := rfl

@[simp] lemma sequencesValueAt_cons (bt : BaseType V) (seq : TSequence V B)
    (seqs : List (TSequence V B)) (t : ℤ) :
    sequencesValueAt bt (seq :: seqs) t = (seq.valueAt bt t).or (sequencesValueAt bt seqs t) := by
  simp only [sequencesValueAt, List.findSome?_cons]
  cases seq.valueAt bt t <;> rfl

lemma sequencesValueAt_append (bt : BaseType V) (seqs1 seqs2 : List (TSequence V B)) (t : ℤ) :
    sequencesValueAt bt (seqs1 ++ seqs2) t =
      (sequencesValueAt bt seqs1 t).or (sequencesValueAt bt seqs2 t) := by
  induction seqs1 with
  | nil => rfl
  | cons seq seqs ih => simp [ih, Option.or_assoc]

/-! ## Values inside one segment -/

section Segment

variable {bt : BaseType V}

lemma tsequenceValueAtTimestamp1_step {inst1 inst2 : TInstant V} {t : ℤ} (h : t < inst2.t) :
    tsequenceValueAtTimestamp1 bt inst1 inst2 false t = inst1.value := by
  simp [tsequenceValueAtTimestamp1, h]

lemma tsequenceValueAtTimestamp1_const {inst1 inst2 : TInstant V} {linear : Bool} {t : ℤ}
    (h : inst1.value = inst2.value) :
    tsequenceValueAtTimestamp1 bt inst1 inst2 linear t = inst1.value := by
  simp [tsequenceValueAtTimestamp1, h]

lemma tsequenceValueAtTimestamp1_eq_interpolate (hbt : LawfulBaseType bt)
    {inst1 inst2 : TInstant V} {t : ℤ} (hne : inst1.value ≠ inst2.value) (h1 : inst1.t ≤ t)
    (h2 : t ≤ inst2.t) :
    tsequenceValueAtTimestamp1 bt inst1 inst2 true t = bt.interpolate inst1.value inst2.value
      (((t - inst1.t : ℤ) : ℚ) / ((inst2.t - inst1.t : ℤ) : ℚ)) := by
  unfold tsequenceValueAtTimestamp1
  by_cases ht1 : inst1.t = t
  · subst ht1
    simp [hbt.interpolate_zero]
  by_cases ht2 : inst2.t = t
  · subst ht2
    have hd : (inst2.t : ℚ) - inst1.t ≠ 0 := sub_ne_zero.mpr (by exact_mod_cast Ne.symm ht1)
    simp [hne, ht1, div_self hd, hbt.interpolate_one]
  simp [hne, ht1, ht2]

lemma tlinearseqIntersectionValue_value {inst1 inst2 : TInstant V} {value : V} {r : V × ℤ}
    (h : tlinearseqIntersectionValue bt inst1 inst2 value = some r) :
    r.1 = tsequenceValueAtTimestamp1 bt inst1 inst2 true r.2 := by
  unfold tlinearseqIntersectionValue at h
  split_ifs at h
  obtain ⟨t, -, rfl⟩ := Option.map_eq_some'.mp h
  rfl

/-- A sub-segment `[a, b]` of a segment, starting at the value of the segment at `a`
and ending at its value at `b`, takes the values of the segment. With step
interpolation the end value is not read. -/
lemma tsequenceValueAtTimestamp1_subsegment {linear : Bool}
    (hbt : linear = true → LawfulBaseType bt) {inst1 inst2 : TInstant V} {a b t : ℤ} {w : V}
    (h1 : inst1.t ≤ a) (hab : a < b) (h2 : b ≤ inst2.t) (hat : a ≤ t) (htb : t < b)
    (hw : linear = true → w = tsequenceValueAtTimestamp1 bt inst1 inst2 linear b) :
    tsequenceValueAtTimestamp1 bt ⟨tsequenceValueAtTimestamp1 bt inst1 inst2 linear a, a⟩ ⟨w, b⟩
        linear t = tsequenceValueAtTimestamp1 bt inst1 inst2 linear t := by
  cases linear with
  | false =>
    rw [tsequenceValueAtTimestamp1_step htb, tsequenceValueAtTimestamp1_step (by omega),
      tsequenceValueAtTimestamp1_step (by omega)]
  | true =>
    have law := hbt rfl
    by_cases hv : inst1.value = inst2.value
    · simp only [hw rfl, tsequenceValueAtTimestamp1_const hv]
      simp [tsequenceValueAtTimestamp1]
    · have hd : ((inst2.t - inst1.t : ℤ) : ℚ) ≠ 0 := by exact_mod_cast sub_ne_zero.mpr (by omega)
      rw [hw rfl, tsequenceValueAtTimestamp1_eq_interpolate law hv h1 (by omega),
        tsequenceValueAtTimestamp1_eq_interpolate law hv (by omega) h2,
        tsequenceValueAtTimestamp1_eq_interpolate law hv (by omega) (by omega)]
      have hab' : ((a - inst1.t : ℤ) : ℚ) / ((inst2.t - inst1.t : ℤ) : ℚ) ≠
          ((b - inst1.t : ℤ) : ℚ) / ((inst2.t - inst1.t : ℤ) : ℚ) := by
        rw [Ne, div_left_inj' hd]
        exact_mod_cast (by omega : a - inst1.t ≠ b - inst1.t)
      rw [tsequenceValueAtTimestamp1_eq_interpolate law
          (fun h => hab' (law.interpolate_injective _ _ _ _ hv h)) hat htb.le,
        law.interpolate_interpolate]
      have hd' : (inst2.t : ℚ) - inst1.t ≠ 0 := by exact_mod_cast sub_ne_zero.mpr (by omega)
      have hba : (b : ℚ) - a ≠ 0 := by exact_mod_cast sub_ne_zero.mpr (by omega)
      congr 1
      push_cast
      field_simp
      ring

end Segment

/-! ## Values of an instant array -/

section Instants

variable {bt : BaseType V} {linear : Bool}

@[simp] lemma tsequenceValueAtTimestamp1_start (inst1 inst2 : TInstant V) :
    tsequenceValueAtTimestamp1 bt inst1 inst2 linear inst1.t = inst1.value := by
  simp [tsequenceValueAtTimestamp1]

@[simp] lemma tsequenceValueAtTimestamp1_end {inst1 inst2 : TInstant V} (h : inst1.t < inst2.t) :
    tsequenceValueAtTimestamp1 bt inst1 inst2 linear inst2.t = inst2.value := by
  by_cases hv : inst1.value = inst2.value
  · simp [tsequenceValueAtTimestamp1, hv]
  · simp [tsequenceValueAtTimestamp1, hv, h.ne]

lemma instantsValueAt_cons_cons (inst1 inst2 : TInstant V) (rest : List (TInstant V)) (t : ℤ) :
    instantsValueAt bt linear (inst1 :: inst2 :: rest) t =
      if t < inst2.t then
        if inst1.t ≤ t then some (tsequenceValueAtTimestamp1 bt inst1 inst2 linear t) else none
      else instantsValueAt bt linear (inst2 :: rest) t := rfl

lemma instantsValueAt_head {inst : TInstant V} {rest : List (TInstant V)}
    (hs : (inst :: rest).Pairwise fun inst1 inst2 => inst1.t < inst2.t) :
    instantsValueAt bt linear (inst :: rest) inst.t = some inst.value := by
  match rest with
  | [] => simp [instantsValueAt]
  | inst2 :: rest =>
    have h12 : inst.t < inst2.t := List.rel_of_pairwise_cons hs (List.mem_cons_self _ _)
    simp [instantsValueAt_cons_cons, h12]

lemma instantsValueAt_of_lt {inst : TInstant V} {rest : List (TInstant V)} {t : ℤ}
    (hs : (inst :: rest).Pairwise fun inst1 inst2 => inst1.t < inst2.t) (ht : t < inst.t) :
    instantsValueAt bt linear (inst :: rest) t = none := by
  match rest with
  | [] => simp [instantsValueAt, ht.ne]
  | inst2 :: rest =>
    have h12 : inst.t < inst2.t := List.rel_of_pairwise_cons hs (List.mem_cons_self _ _)
    simp [instantsValueAt_cons_cons, show t < inst2.t by omega, not_le.mpr ht]

/-- Inside the segment of index `m`, an array takes the value of that segment. -/
lemma instantsValueAt_of_getElem? {instants : List (TInstant V)} {m : ℕ} {inst1 inst2 : TInstant V}
    {t : ℤ} (hs : instants.Pairwise fun inst1 inst2 => inst1.t < inst2.t)
    (h1 : instants[m]? = some inst1) (h2 : instants[m + 1]? = some inst2) (ht1 : inst1.t ≤ t)
    (ht2 : t ≤ inst2.t) :
    instantsValueAt bt linear instants t = some (tsequenceValueAtTimestamp1 bt inst1 inst2 linear t) := by
  induction m generalizing instants with
  | zero =>
    match instants, h1, h2 with
    | a :: b :: rest, h1, h2 =>
      simp only [List.getElem?_cons_zero, List.getElem?_cons_succ, Option.some.injEq] at h1 h2
      subst h1 h2
      rw [instantsValueAt_cons_cons]
      rcases ht2.lt_or_eq with ht2 | rfl
      · simp [ht2, ht1]
      · have h12 : a.t < b.t := List.rel_of_pairwise_cons hs (List.mem_cons_self _ _)
        simp [instantsValueAt_head hs.of_cons, h12]
  | succ m ih =>
    match instants, h1, h2 with
    | inst :: next :: rest, h1, h2 =>
      have hnext : next.t ≤ inst1.t :=
        t_le_of_getElem? hs.of_cons List.getElem?_cons_zero (by simpa using h1) (Nat.zero_le _)
      have hlt : inst.t < next.t := List.rel_of_pairwise_cons hs (List.mem_cons_self _ _)
      rw [instantsValueAt_cons_cons, if_neg (by omega)]
      exact ih hs.of_cons (by simpa using h1) (by simpa using h2)

lemma instantsValueAt_cons_of_le {inst next : TInstant V} {rest : List (TInstant V)} {t : ℤ}
    (h : next.t ≤ t) :
    instantsValueAt bt linear (inst :: next :: rest) t = instantsValueAt bt linear (next :: rest) t := by
  rw [instantsValueAt_cons_cons, if_neg (not_lt.mpr h)]

lemma instantsValueAt_append_last {instants : List (TInstant V)} {last : TInstant V}
    (hs : (instants ++ [last]).Pairwise fun inst1 inst2 => inst1.t < inst2.t) :
    instantsValueAt bt linear (instants ++ [last]) last.t = some last.value := by
  induction instants with
  | nil => simp [instantsValueAt]
  | cons inst rest ih =>
    match rest, hs, ih with
    | [], hs, _ =>
      have hlt : inst.t < last.t := List.rel_of_pairwise_cons hs (by simp)
      simp [instantsValueAt_cons_of_le, instantsValueAt]
    | inst2 :: rest, hs, ih =>
      have h2 : inst2.t < last.t := List.rel_of_pairwise_cons hs.of_cons (by simp)
      rw [List.cons_append, List.cons_append, instantsValueAt_cons_of_le h2.le, ← List.cons_append,
        ih hs.of_cons]

/-- Replacing the instants up to `a` by the instant of the value at `a` keeps the
values from `a` on. -/
lemma instantsValueAt_cutFront (hbt : linear = true → LawfulBaseType bt)
    {instants : List (TInstant V)} {a t : ℤ} {va : V}
    (hs : instants.Pairwise fun inst1 inst2 => inst1.t < inst2.t)
    (ha : instantsValueAt bt linear instants a = some va) (hat : a ≤ t) :
    instantsValueAt bt linear (⟨va, a⟩ :: instants.filter fun inst => a < inst.t) t =
      instantsValueAt bt linear instants t := by
  induction instants with
  | nil => simp [instantsValueAt] at ha
  | cons inst1 rest ih =>
    match rest, hs, ha, ih with
    | [], _, ha, _ =>
      simp only [instantsValueAt, Option.ite_none_right_eq_some, Option.some.injEq] at ha
      obtain ⟨rfl, rfl⟩ := ha
      simp [instantsValueAt]
    | inst2 :: rest, hs, ha, ih =>
      have h12 : inst1.t < inst2.t := List.rel_of_pairwise_cons hs (List.mem_cons_self _ _)
      rw [instantsValueAt_cons_cons] at ha
      by_cases ha2 : a < inst2.t
      · simp only [ha2, if_true, Option.ite_none_right_eq_some, Option.some.injEq] at ha
        obtain ⟨ha1, rfl⟩ := ha
        have hrest : (inst2 :: rest).filter (fun inst => a < inst.t) = inst2 :: rest :=
          List.filter_eq_self.mpr fun x hx => by
            rcases List.mem_cons.mp hx with rfl | hx
            · simpa using ha2
            · simpa using ha2.trans (List.rel_of_pairwise_cons hs.of_cons hx)
        rw [List.filter_cons_of_neg (by simpa using ha1), hrest, instantsValueAt_cons_cons,
          instantsValueAt_cons_cons]
        by_cases ht2 : t < inst2.t
        · simp only [ht2, hat, ha1.trans hat, if_true]
          exact congrArg some (tsequenceValueAtTimestamp1_subsegment hbt ha1 ha2 le_rfl hat ht2
            fun _ => (tsequenceValueAtTimestamp1_end h12).symm)
        · simp only [ht2, if_false]
      · simp only [ha2, if_false] at ha
        rw [List.filter_cons_of_neg (by simpa using (h12.trans_le (not_lt.mp ha2)).le), ih hs.of_cons ha,
          instantsValueAt_cons_cons, if_neg (by omega)]

/-- Replacing the instants from `b` on by an instant at `b` keeps the values before
`b`; with linear interpolation that instant must carry the value at `b`. -/
lemma instantsValueAt_cutBack (hbt : linear = true → LawfulBaseType bt)
    {instants : List (TInstant V)} {b t : ℤ} {vb w : V}
    (hs : instants.Pairwise fun inst1 inst2 => inst1.t < inst2.t)
    (hb : instantsValueAt bt linear instants b = some vb) (hw : linear = true → w = vb)
    (htb : t < b) :
    instantsValueAt bt linear (instants.filter (fun inst => inst.t < b) ++ [⟨w, b⟩]) t =
      instantsValueAt bt linear instants t := by
  induction instants with
  | nil => simp [instantsValueAt] at hb
  | cons inst1 rest ih =>
    match rest, hs, hb, ih with
    | [], _, hb, _ =>
      simp only [instantsValueAt, Option.ite_none_right_eq_some] at hb
      obtain ⟨rfl, -⟩ := hb
      simp [instantsValueAt, htb.ne]
    | inst2 :: rest, hs, hb, ih =>
      have h12 : inst1.t < inst2.t := List.rel_of_pairwise_cons hs (List.mem_cons_self _ _)
      by_cases hb2 : b ≤ inst2.t
      · have hb1 : inst1.t ≤ b := by
          by_contra hlt
          rw [instantsValueAt_of_lt hs (by omega)] at hb
          cases hb
        rw [instantsValueAt_of_getElem? hs List.getElem?_cons_zero (by simp) hb1 hb2,
          Option.some.injEq] at hb
        have hrest : (inst2 :: rest).filter (fun inst => inst.t < b) = [] :=
          List.filter_eq_nil_iff.mpr fun x hx => by
            rcases List.mem_cons.mp hx with rfl | hx
            · simpa using hb2
            · simpa using hb2.trans (List.rel_of_pairwise_cons hs.of_cons hx).le
        rcases hb1.lt_or_eq with hb1 | rfl
        · rw [List.filter_cons_of_pos (by simpa using hb1), hrest, List.singleton_append,
            instantsValueAt_cons_cons, instantsValueAt_cons_cons, if_pos htb,
            if_pos (show t < inst2.t by omega)]
          split_ifs with ht1
          · have key := tsequenceValueAtTimestamp1_subsegment hbt le_rfl hb1 hb2 ht1 htb
              fun h => (hw h).trans hb.symm
            rw [tsequenceValueAtTimestamp1_start] at key
            exact congrArg some key
          · rfl
        · rw [List.filter_cons_of_neg (by simp), hrest, instantsValueAt_of_lt hs htb]
          simp [instantsValueAt, htb.ne]
      · rw [List.filter_cons_of_pos (by simpa using h12.trans (not_le.mp hb2)),
          List.filter_cons_of_pos (by simpa using not_le.mp hb2), List.cons_append,
          List.cons_append, instantsValueAt_cons_cons, instantsValueAt_cons_cons,
          ← List.cons_append, ← List.filter_cons_of_pos (by simpa using not_le.mp hb2)]
        rw [instantsValueAt_cons_cons, if_neg (by omega)] at hb
        by_cases ht2 : t < inst2.t
        · simp only [ht2, if_true]
        · simp only [ht2, if_false]
          exact ih hs.of_cons hb

lemma instantsValueAt_isSome {instants : List (TInstant V)} {t : ℤ} (hne : instants ≠ [])
    (h1 : firstT instants ≤ t) (h2 : t ≤ lastT instants) :
    (instantsValueAt bt linear instants t).isSome := by
  induction instants with
  | nil => exact absurd rfl hne
  | cons inst rest ih =>
    match rest, ih, h2 with
    | [], _, h2 =>
      simp only [firstT_cons, lastT_singleton] at h1 h2
      simp [instantsValueAt, show t = inst.t by omega]
    | inst2 :: rest, ih, h2 =>
      by_cases ht2 : t < inst2.t
      · simp [instantsValueAt_cons_cons, ht2, show inst.t ≤ t by simpa using h1]
      · rw [instantsValueAt_cons_of_le (not_lt.mp ht2)]
        exact ih (List.cons_ne_nil _ _) (by simpa using ht2) (by simpa using h2)

lemma instantsValueAt_drop {instants : List (TInstant V)} {m : ℕ} {inst : TInstant V} {t : ℤ}
    (hs : instants.Pairwise fun inst1 inst2 => inst1.t < inst2.t)
    (h : instants[m]? = some inst) (ht : inst.t ≤ t) :
    instantsValueAt bt linear instants t = instantsValueAt bt linear (instants.drop m) t := by
  induction m generalizing instants with
  | zero => rfl
  | succ m ih =>
    match instants, h with
    | first :: next :: rest, h =>
      have hnext : next.t ≤ inst.t :=
        t_le_of_getElem? hs.of_cons List.getElem?_cons_zero (by simpa using h) (Nat.zero_le _)
      rw [instantsValueAt_cons_of_le (hnext.trans ht), List.drop_succ_cons]
      exact ih hs.of_cons (by simpa using h)

omit [DecidableEq V] in
/-- The array `tsequence_at_period` builds: an instant at `a`, the instants strictly
between `a` and `b`, and an instant at `b`. -/
lemma pairwise_cut {instants : List (TInstant V)} {a b : ℤ} (va w : V)
    (hs : instants.Pairwise fun inst1 inst2 => inst1.t < inst2.t) (hab : a < b) :
    ((⟨va, a⟩ :: instants.filter (fun inst => a < inst.t ∧ inst.t < b) ++ [⟨w, b⟩] :
      List (TInstant V))).Pairwise fun inst1 inst2 => inst1.t < inst2.t := by
  rw [List.pairwise_append, List.pairwise_cons]
  refine ⟨⟨fun x hx => ?_, hs.filter _⟩, List.pairwise_singleton _ _, fun x hx y hy => ?_⟩
  · simp only [List.mem_filter, decide_eq_true_eq] at hx
    exact hx.2.1
  · rw [List.mem_singleton] at hy
    subst hy
    simp only [List.mem_cons, List.mem_filter, decide_eq_true_eq] at hx
    rcases hx with rfl | ⟨-, -, hx⟩
    · exact hab
    · exact hx

/-- Cutting an array to `[a, b]` by an instant at each end keeps its values in between. -/
lemma instantsValueAt_cut (hbt : linear = true → LawfulBaseType bt)
    {instants : List (TInstant V)} {a b t : ℤ} {va vb w : V}
    (hs : instants.Pairwise fun inst1 inst2 => inst1.t < inst2.t)
    (ha : instantsValueAt bt linear instants a = some va)
    (hb : instantsValueAt bt linear instants b = some vb) (hw : linear = true → w = vb)
    (hab : a < b) (hat : a ≤ t) (htb : t < b) :
    instantsValueAt bt linear
        (⟨va, a⟩ :: instants.filter (fun inst => a < inst.t ∧ inst.t < b) ++ [⟨w, b⟩]) t =
      instantsValueAt bt linear instants t := by
  have hfront := fun t => instantsValueAt_cutFront hbt hs ha (t := t)
  have hs1 : (⟨va, a⟩ :: instants.filter fun inst => a < inst.t).Pairwise
      fun (inst1 inst2 : TInstant V) => inst1.t < inst2.t :=
    List.pairwise_cons.mpr ⟨fun x hx => by simpa using (List.mem_filter.mp hx).2, hs.filter _⟩
  have hback := instantsValueAt_cutBack hbt hs1 ((hfront b hab.le).trans hb) hw htb
  have hfilter : ((instants.filter fun inst => a < inst.t).filter fun inst => inst.t < b) =
      instants.filter fun inst => a < inst.t ∧ inst.t < b := by
    rw [List.filter_filter]
    exact List.filter_congr fun inst _ => by rw [Bool.decide_and, Bool.and_comm]
  rw [List.filter_cons_of_pos (by simpa using hab), hfilter] at hback
  rw [← hfront t hat, ← hback]

end Instants

theorem TSequence.valueAt_isSome {bt : BaseType V} {seq : TSequence V B} (hwf : seq.WellFormed)
    (t : ℤ) : (seq.valueAt bt t).isSome = containsPeriodTimestamp seq.period t := by
  unfold TSequence.valueAt
  cases hc : containsPeriodTimestamp seq.period t
  · rfl
  · have hb := bounds_of_containsPeriodTimestamp hc
    rw [hwf.period] at hb
    exact instantsValueAt_isSome hwf.nonempty hb.1 hb.2

lemma TSequence.valueAt_of_mem {bt : BaseType V} {seq : TSequence V B} (hwf : seq.WellFormed)
    {inst : TInstant V} (hi : inst ∈ seq.instants)
    (hc : containsPeriodTimestamp seq.period inst.t = true) :
    seq.valueAt bt inst.t = some inst.value := by
  have hs := chain'_t_iff_pairwise.mp hwf.increasing
  obtain ⟨m, hm⟩ := List.mem_iff_getElem?.mp hi
  obtain ⟨hlen, rfl⟩ := List.getElem?_eq_some_iff.mp hm
  rw [TSequence.valueAt, if_pos hc, instantsValueAt_drop hs hm le_rfl,
    List.drop_eq_getElem_cons hlen]
  exact instantsValueAt_head (List.drop_eq_getElem_cons hlen ▸ hs.sublist (List.drop_sublist _ _))

lemma TSequence.valueAt_of_not_contains {bt : BaseType V} {seq : TSequence V B} {t : ℤ}
    (h : containsPeriodTimestamp seq.period t = false) : seq.valueAt bt t = none := by
  simp [TSequence.valueAt, h]

lemma TSequence.valueAt_of_upper_lt {bt : BaseType V} {seq : TSequence V B} {t : ℤ}
    (h : seq.period.upper < t) : seq.valueAt bt t = none := by
  apply TSequence.valueAt_of_not_contains
  cases hc : containsPeriodTimestamp seq.period t
  · rfl
  · exact absurd (bounds_of_containsPeriodTimestamp hc).2 (not_le.mpr h)

lemma TSequence.valueAt_of_lt_lower {bt : BaseType V} {seq : TSequence V B} {t : ℤ}
    (h : t < seq.period.lower) : seq.valueAt bt t = none := by
  apply TSequence.valueAt_of_not_contains
  cases hc : containsPeriodTimestamp seq.period t
  · rfl
  · exact absurd (bounds_of_containsPeriodTimestamp hc).1 (not_le.mpr h)

lemma tsequenceMake_valueAt {bt : BaseType V} {bx : BBoxOps V B} {instants : List (TInstant V)}
    {lowerInc upperInc linear : Bool} {seq : TSequence V B}
    (h : tsequenceMake bt bx instants lowerInc upperInc linear false = .ok seq) (t : ℤ) :
    seq.valueAt bt t =
      if containsPeriodTimestamp (periodOf instants lowerInc upperInc) t then
        instantsValueAt bt linear instants t
      else none := by
  obtain ⟨-, rfl⟩ := tsequenceMake_eq_ok.mp h
  rfl

end TemporalSequence
