import TemporalSequence.Semantics
import TemporalSequence.TNumber

/-!
# Shifting a sequence in time

`tsequence_shift` moves every timestamp of a copy of the sequence and the bounds of its
period by `timestamptz_pl_interval` with the interval, and shifts its box. With an
interval of a fixed number `d` of microseconds this is a translation. The value of a
segment and the redundancy test of the normalization read timestamps only through their
differences, so both commute with the translation: the shifted sequence is valid when
the sequence is, provided the box shift moves the box of the instants to the box of the
shifted instants, as it does for temporal numbers, and it takes at `t + d` the value the
sequence takes at `t`.
-/

namespace TemporalSequence

variable {V B : Type}

/-- The instant moved by `d` microseconds, as the loop of `tsequence_shift` moves it. -/
def shiftInstant (d : ℤ) (inst : TInstant V) : TInstant V :=
  ⟨inst.value, inst.t + d⟩

@[simp] lemma shiftInstant_value (d : ℤ) (inst : TInstant V) :
    (shiftInstant d inst).value = inst.value := rfl

@[simp] lemma shiftInstant_t (d : ℤ) (inst : TInstant V) : (shiftInstant d inst).t = inst.t + d := rfl

lemma lastTwo?_map {α β : Type} (f : α → β) :
    ∀ l : List α, lastTwo? (l.map f) = (lastTwo? l).map (Prod.map f f)
  | [] => rfl
  | [_] => rfl
  | [_, _] => rfl
  | _ :: b :: c :: rest => by
    simp only [List.map_cons, lastTwo?]
    exact lastTwo?_map f (b :: c :: rest)

section Array

variable (d : ℤ)

lemma lastT_map_shiftInstant {instants : List (TInstant V)} (hne : instants ≠ []) :
    lastT (instants.map (shiftInstant d)) = lastT instants + d := by
  simp [lastT, List.getLast?_eq_getLast _ hne]

lemma periodOf_map_shiftInstant {instants : List (TInstant V)} (hne : instants ≠ [])
    (lowerInc upperInc : Bool) :
    periodOf (instants.map (shiftInstant d)) lowerInc upperInc =
      ⟨(periodOf instants lowerInc upperInc).lower + d,
        (periodOf instants lowerInc upperInc).upper + d, lowerInc, upperInc⟩ := by
  obtain ⟨inst, rest, rfl⟩ := List.exists_cons_of_ne_nil hne
  rw [periodOf, periodOf, lastT_map_shiftInstant d hne]
  rfl

lemma containsPeriodTimestamp_shift (p : Period) (t : ℤ) :
    containsPeriodTimestamp ⟨p.lower + d, p.upper + d, p.lowerInc, p.upperInc⟩ (t + d) =
      containsPeriodTimestamp p t := by
  rw [Bool.eq_iff_iff, containsPeriodTimestamp_iff, containsPeriodTimestamp_iff]
  simp only [add_lt_add_iff_right, add_left_inj]

variable [DecidableEq V]

lemma tsequenceValueAtTimestamp1_shift (bt : BaseType V) (inst1 inst2 : TInstant V)
    (linear : Bool) (t : ℤ) :
    tsequenceValueAtTimestamp1 bt (shiftInstant d inst1) (shiftInstant d inst2) linear (t + d) =
      tsequenceValueAtTimestamp1 bt inst1 inst2 linear t := by
  simp [tsequenceValueAtTimestamp1, add_sub_add_right_eq_sub]

lemma instantsValueAt_map_shiftInstant (bt : BaseType V) (linear : Bool) :
    ∀ (instants : List (TInstant V)) (t : ℤ),
      instantsValueAt bt linear (instants.map (shiftInstant d)) (t + d) =
        instantsValueAt bt linear instants t
  | [], _ => rfl
  | [inst], t => by simp [instantsValueAt]
  | inst1 :: inst2 :: rest, t => by
    rw [List.map_cons, List.map_cons, instantsValueAt_cons_cons, instantsValueAt_cons_cons,
      ← List.map_cons, instantsValueAt_map_shiftInstant bt linear (inst2 :: rest) t,
      tsequenceValueAtTimestamp1_shift]
    simp

lemma normalizeRedundant_shift (bt : BaseType V) (linear : Bool) (inst1 inst2 inst3 : TInstant V) :
    normalizeRedundant bt linear (shiftInstant d inst1) (shiftInstant d inst2) (shiftInstant d inst3) =
      normalizeRedundant bt linear inst1 inst2 inst3 := by
  simp [normalizeRedundant, datumCollinear, add_sub_add_right_eq_sub]

lemma tinstantarrNormalizeLoop_shift (bt : BaseType V) (linear : Bool) :
    ∀ (inst1 inst2 : TInstant V) (rest : List (TInstant V)),
      tinstantarrNormalizeLoop bt linear (shiftInstant d inst1) (shiftInstant d inst2)
          (rest.map (shiftInstant d)) =
        (tinstantarrNormalizeLoop bt linear inst1 inst2 rest).map (shiftInstant d)
  | _, _, [] => rfl
  | inst1, inst2, inst3 :: rest => by
    rw [List.map_cons, tinstantarrNormalizeLoop, tinstantarrNormalizeLoop, normalizeRedundant_shift]
    split_ifs
    · exact tinstantarrNormalizeLoop_shift bt linear inst1 inst3 rest
    · rw [List.map_cons, tinstantarrNormalizeLoop_shift bt linear inst2 inst3 rest]

lemma tinstantarrNormalize_shift (bt : BaseType V) (instants : List (TInstant V)) (linear : Bool) :
    tinstantarrNormalize bt (instants.map (shiftInstant d)) linear =
      (tinstantarrNormalize bt instants linear).map (shiftInstant d) := by
  rcases instants with _ | ⟨inst1, _ | ⟨inst2, rest⟩⟩
  · rfl
  · rfl
  · simp only [List.map_cons, tinstantarrNormalize, ← tinstantarrNormalizeLoop_shift]

end Array

section Sequence

variable (d : ℤ) (shiftBox : B → B) (seq : TSequence V B)

@[simp] lemma tsequenceShift_instants :
    (tsequenceShift (· + d) shiftBox seq).instants = seq.instants.map (shiftInstant d) := rfl

@[simp] lemma tsequenceShift_period :
    (tsequenceShift (· + d) shiftBox seq).period =
      ⟨seq.period.lower + d, seq.period.upper + d, seq.period.lowerInc, seq.period.upperInc⟩ := rfl

@[simp] lemma tsequenceShift_linear : (tsequenceShift (· + d) shiftBox seq).linear = seq.linear := rfl

@[simp] lemma tsequenceShift_bbox : (tsequenceShift (· + d) shiftBox seq).bbox = shiftBox seq.bbox := rfl

variable [DecidableEq V] {bt : BaseType V} {bx : BBoxOps V B}

/-- Shifting by a fixed number `d` of microseconds, `tsequence_shift` keeps a valid
sequence valid, provided the box shift moves the box of any non-empty instant array to
the box of the shifted array, and the shifted sequence takes at `t + d` the value the
sequence takes at `t`. -/
theorem tsequenceShift_translate
    (hbox : ∀ instants lowerInc upperInc, instants ≠ [] →
      shiftBox (bx.make instants lowerInc upperInc) =
        bx.make (instants.map (shiftInstant d)) lowerInc upperInc)
    (hv : seq.Valid bt bx) :
    (tsequenceShift (· + d) shiftBox seq).Valid bt bx ∧
      ∀ t, (tsequenceShift (· + d) shiftBox seq).valueAt bt (t + d) = seq.valueAt bt t := by
  refine ⟨⟨by simpa using hv.nonempty, ?_, ?_, by simpa using hv.instantBounds, ?_, ?_, ?_⟩,
    fun t => ?_⟩
  · exact (List.chain'_map _).mpr (hv.increasing.imp fun a b h => by simpa using h)
  · rw [tsequenceShift_instants, tsequenceShift_period, periodOf_map_shiftInstant d hv.nonempty,
      ← hv.period]
  · rw [tsequenceShift_instants, lastTwo?_map]
    rcases h : lastTwo? seq.instants with _ | ⟨a, b⟩
    · simp
    · simpa [h] using hv.endValue
  · rw [tsequenceShift_instants, tsequenceShift_linear, tinstantarrNormalize_shift, hv.normalized]
  · rw [tsequenceShift_bbox, tsequenceShift_instants, tsequenceShift_period, hv.bbox,
      hbox _ _ _ hv.nonempty]
  · rw [TSequence.valueAt, TSequence.valueAt, tsequenceShift_period, containsPeriodTimestamp_shift,
      tsequenceShift_instants, tsequenceShift_linear, instantsValueAt_map_shiftInstant]

end Sequence

lemma tboxShift_tboxExpand (d : ℤ) (box1 box2 : TBox) :
    tboxShift (· + d) (tboxExpand box1 box2) = tboxExpand (tboxShift (· + d) box1) (tboxShift (· + d) box2) := by
  simp [tboxShift, tboxExpand, min_add_add_right, max_add_add_right]

lemma tnumberBBox_make_shift (toDouble : V → ℚ) (d : ℤ) (instants : List (TInstant V))
    (lowerInc upperInc : Bool) (hne : instants ≠ []) :
    tboxShift (· + d) ((tnumberBBox toDouble).make instants lowerInc upperInc) =
      (tnumberBBox toDouble).make (instants.map (shiftInstant d)) lowerInc upperInc := by
  obtain ⟨inst, rest, rfl⟩ := List.exists_cons_of_ne_nil hne
  clear hne
  suffices h : ∀ box, tboxShift (· + d) (rest.foldl (fun box i => tboxExpand box
      ⟨toDouble i.value, toDouble i.value, i.t, i.t⟩) box) =
      (rest.map (shiftInstant d)).foldl (fun box i => tboxExpand box
        ⟨toDouble i.value, toDouble i.value, i.t, i.t⟩) (tboxShift (· + d) box) from h _
  induction rest with
  | nil => exact fun _ => rfl
  | cons i rest ih =>
    intro box
    rw [List.foldl_cons, ih, List.map_cons, List.foldl_cons, tboxShift_tboxExpand]
    rfl

/-- The valid linear float sequence `[0@0, 4@4]` shifted by 10 microseconds. -/
theorem tsequenceShift_translate_line :
    (∀ instants lowerInc upperInc, instants ≠ [] →
      tboxShift (· + 10) ((tnumberBBox id).make instants lowerInc upperInc) =
        (tnumberBBox id).make (instants.map (shiftInstant 10)) lowerInc upperInc) ∧
    (⟨[⟨0, 0⟩, ⟨4, 4⟩], ⟨0, 4, true, true⟩, true, ⟨0, 4, 0, 4⟩⟩ : TSequence ℚ TBox).Valid
      (tfloat 0) (tnumberBBox id) ∧
    (tsequenceShift (· + 10) (tboxShift (· + 10))
      (⟨[⟨0, 0⟩, ⟨4, 4⟩], ⟨0, 4, true, true⟩, true, ⟨0, 4, 0, 4⟩⟩ : TSequence ℚ TBox)).Valid
        (tfloat 0) (tnumberBBox id) ∧
    ∀ t, (tsequenceShift (· + 10) (tboxShift (· + 10))
      (⟨[⟨0, 0⟩, ⟨4, 4⟩], ⟨0, 4, true, true⟩, true, ⟨0, 4, 0, 4⟩⟩ : TSequence ℚ TBox)).valueAt
        (tfloat 0) (t + 10) =
      (⟨[⟨0, 0⟩, ⟨4, 4⟩], ⟨0, 4, true, true⟩, true, ⟨0, 4, 0, 4⟩⟩ : TSequence ℚ TBox).valueAt
        (tfloat 0) t := by
  have hbox := tnumberBBox_make_shift (id : ℚ → ℚ) 10
  have hv : (⟨[⟨0, 0⟩, ⟨4, 4⟩], ⟨0, 4, true, true⟩, true, ⟨0, 4, 0, 4⟩⟩ :
      TSequence ℚ TBox).Valid (tfloat 0) (tnumberBBox id) := by
    simp [TSequence.valid_iff, lastTwo?, periodOf, lastT, tinstantarrNormalize,
      tinstantarrNormalizeLoop, normalizeRedundant, tnumberBBox, tboxExpand, datumCollinear, tfloat,
      floatCollinear]
  exact ⟨hbox, hv, tsequenceShift_translate 10 (tboxShift (· + 10)) _ hbox hv⟩

end TemporalSequence
