import TemporalSequence.Proofs.ValueLoop
import TemporalSequence.TNumber

/-!
# Restricting a sequence to a value

`tsequence_at_value` and `tsequence_minus_value` return, on a valid sequence whose box
test is sound, two lists of sequences that together split the sequence: they are
pairwise disjoint in time, cover its period and agree with it. The first covers an
instant exactly when it takes the value and every segment on which the sequence is
constantly the value, and with step interpolation exactly the timestamps where the
sequence takes the value.

The box of values of a temporal number also gives its least and greatest values: the
box branch of `tsequence_min_value` and `tsequence_max_value` agrees with their loop.
-/

namespace TemporalSequence

variable {V B : Type}

/-- The box test of `temporal_bbox_restrict_value` is sound: a box made from instants
rules out only values that none of them takes. -/
def BBoxOps.RestrictValueSound (bx : BBoxOps V B) : Prop :=
  ∀ instants lowerInc upperInc value,
    bx.restrictValue (bx.make instants lowerInc upperInc) value = false →
      ∀ inst ∈ instants, inst.value ≠ value

lemma foldl_tboxExpand_bounds (toDouble : V → ℚ) (rest : List (TInstant V)) (box : TBox) :
    let box' := rest.foldl (fun box i => tboxExpand box
      ⟨toDouble i.value, toDouble i.value, i.t, i.t⟩) box
    box'.xmin ≤ box.xmin ∧ box.xmax ≤ box'.xmax ∧
      ∀ i ∈ rest, box'.xmin ≤ toDouble i.value ∧ toDouble i.value ≤ box'.xmax := by
  induction rest generalizing box with
  | nil => simp
  | cons i rest ih =>
    obtain ⟨hmin, hmax, hrest⟩ := ih (tboxExpand box ⟨toDouble i.value, toDouble i.value, i.t, i.t⟩)
    simp only [tboxExpand, le_min_iff, max_le_iff] at hmin hmax
    refine ⟨hmin.1, hmax.1, fun j hj => ?_⟩
    rcases List.mem_cons.mp hj with rfl | hj
    · exact ⟨hmin.2, hmax.2⟩
    · exact hrest j hj

theorem tnumberBBox_restrictValueSound (toDouble : V → ℚ) :
    (tnumberBBox toDouble).RestrictValueSound := by
  rintro (_ | ⟨inst1, rest⟩) lowerInc upperInc value h inst hinst rfl
  · cases hinst
  · obtain ⟨hmin, hmax, hrest⟩ := foldl_tboxExpand_bounds toDouble rest
      ⟨toDouble inst1.value, toDouble inst1.value, inst1.t, inst1.t⟩
    simp only [tnumberBBox, decide_eq_false_iff_not, not_and, not_le] at h
    rcases List.mem_cons.mp hinst with rfl | hi
    · exact absurd hmax (not_le.mpr (h hmin))
    · exact absurd (hrest inst hi).2 (not_le.mpr (h (hrest inst hi).1))

variable [DecidableEq V]

/-- The sequences `rs` split the sequence `seq`: they are well formed with its
interpolation, pairwise disjoint in time, cover together its period, and agree with it
on theirs. -/
structure SplitOf (bt : BaseType V) (seq : TSequence V B) (rs : List (TSequence V B)) : Prop where
  wellFormed : ∀ r ∈ rs, r.WellFormed ∧ r.linear = seq.linear
  disjoint : rs.Pairwise fun r1 r2 => ∀ t, containsPeriodTimestamp r1.period t = true →
    containsPeriodTimestamp r2.period t = false
  spans : ∀ t, (∃ r ∈ rs, containsPeriodTimestamp r.period t = true) ↔
    containsPeriodTimestamp seq.period t = true
  agrees : ∀ r ∈ rs, ∀ t, containsPeriodTimestamp r.period t = true →
    r.valueAt bt t = seq.valueAt bt t

theorem splitOf_of_pieces {bt : BaseType V} {seq : TSequence V B} {rs : List (TSequence V B)}
    (hP : PiecesOf bt seq.linear seq.instants seq.period rs)
    (hcount : ∀ t, timesCovered rs t = if containsPeriodTimestamp seq.period t then 1 else 0) :
    SplitOf bt seq rs where
  wellFormed r hr := ⟨(hP r hr).1, (hP r hr).2.1⟩
  disjoint := pairwise_disjoint_of_timesCovered_le_one fun t => by
    rw [hcount]
    split <;> omega
  spans t := by
    rw [← timesCovered_pos_iff, hcount]
    split <;> simp_all
  agrees r hr t ht := by
    obtain ⟨hc, hv⟩ := (hP r hr).2.2 t ht
    rw [hv, TSequence.valueAt, if_pos hc]

section Value

variable {bt : BaseType V} {bx : BBoxOps V B} {seq : TSequence V B} {value : V}
  (hwf : seq.WellFormed)
include hwf

lemma piecesOf_copy : PiecesOf bt seq.linear seq.instants seq.period [tsequenceCopy seq] := by
  intro r hr
  obtain rfl := List.mem_singleton.mp hr
  exact ⟨hwf, rfl, fun t ht => ⟨ht, by rw [TSequence.valueAt, if_pos ht]⟩⟩

lemma valueResults_of_forall_ne (hne : ∀ inst ∈ seq.instants, inst.value ≠ value) :
    AtValueResult bt seq.linear value seq.instants seq.period ([] : List (TSequence V B)) ∧
      MinusValueResult bt seq.linear seq.instants seq.period [] [tsequenceCopy seq] := by
  have hnot : ∀ t, instantsValueAt bt false seq.instants t ≠ some value := fun t h => by
    obtain ⟨a, ha, hav⟩ := instantsValueAt_step_mem h
    exact hne a ha hav
  refine ⟨⟨piecesOf_nil, fun _ t => by simp [hnot t], fun inst hinst _ => by simp [hne inst hinst],
    ?_⟩, ⟨piecesOf_copy hwf, fun t => by simp [tsequenceCopy]⟩⟩
  exact ((chain'_t_iff_pairwise.mp hwf.increasing).imp_of_mem
    fun ha _ _ h1 => absurd h1 (hne _ ha)).chain'

lemma valueResults_of_instant {inst : TInstant V} (hinst : seq.instants = [inst])
    (hv : inst.value = value) :
    AtValueResult bt seq.linear value seq.instants seq.period [tsequenceCopy seq] ∧
      MinusValueResult bt seq.linear seq.instants seq.period [tsequenceCopy seq] [] := by
  have hper : seq.period = ⟨inst.t, inst.t, seq.period.lowerInc, seq.period.upperInc⟩ := by
    rw [hwf.period, hinst]
    rfl
  have hc : ∀ t, containsPeriodTimestamp seq.period t = true → t = inst.t := fun t ht => by
    have := bounds_of_containsPeriodTimestamp ht
    rw [hper] at this
    exact le_antisymm this.2 this.1
  refine ⟨⟨piecesOf_copy hwf, fun _ t => ?_, fun i hi ht => ?_, by simp [hinst]⟩,
    ⟨piecesOf_nil, fun t => by simp [tsequenceCopy]⟩⟩
  · by_cases ht : containsPeriodTimestamp seq.period t = true
    · simp [tsequenceCopy, ht, hinst, instantsValueAt, hc t ht, hv]
    · simp [tsequenceCopy, ht]
  · obtain rfl : i = inst := by simpa [hinst] using hi
    simp [tsequenceCopy, ht, hv]

lemma stepEnd_of_wellFormed (hlin : seq.linear = false) (hu : seq.period.upperInc = false)
    (h2 : 2 ≤ seq.instants.length) : StepEnd value seq.instants := by
  intro last hl _
  obtain ⟨prev, htwo⟩ := lastTwo?_of_getLast? h2 hl
  have := hwf.endValue
  simp only [hlin, hu, htwo, Bool.not_false, Option.any_some, ne_eq, decide_not, Bool.not_eq_true',
    decide_eq_false_iff_not, not_not, true_and, and_true] at this
  exact ⟨prev, htwo, this⟩

/-- On a well-formed sequence with a sound box, `tsequence_at_value` and
`tsequence_minus_value` succeed, with pieces of the sequence that together cover each
timestamp of its period once. -/
theorem tsequenceValue_results (hbt : seq.linear = true → LawfulBaseType bt)
    (hbx : bx.RestrictValueSound)
    (hbox : seq.bbox = bx.make seq.instants seq.period.lowerInc seq.period.upperInc)
    (hcross : seq.linear = true → seq.instants.Chain' fun a b =>
      ∀ r ∈ tlinearseqIntersectionValue bt a b value, a.t < r.2 ∧ r.2 < b.t) :
    ∃ ats mins, tsequenceAtValue bt bx seq value = .ok ats ∧
      tsequenceMinusValue bt bx seq value = .ok mins ∧
      AtValueResult bt seq.linear value seq.instants seq.period ats ∧
      MinusValueResult bt seq.linear seq.instants seq.period ats mins := by
  have hs := chain'_t_iff_pairwise.mp hwf.increasing
  obtain ⟨inst1, rest, h⟩ := List.exists_cons_of_ne_nil hwf.nonempty
  rcases rest with _ | ⟨inst2, rest⟩
  · by_cases hv : inst1.value = value
    · obtain ⟨hA, hM⟩ := valueResults_of_instant hwf h hv
      exact ⟨_, _, by simp only [tsequenceAtValue, h, hv, ne_eq, not_true_eq_false, if_false]; rfl,
        by simp only [tsequenceMinusValue, h, hv, if_true]; rfl, hA, hM⟩
    · obtain ⟨hA, hM⟩ := valueResults_of_forall_ne hwf (by simpa [h] using hv)
      exact ⟨_, _, by simp only [tsequenceAtValue, h, hv, ne_eq, not_false_eq_true, if_true]; rfl,
        by simp only [tsequenceMinusValue, h, hv, if_false]; rfl, hA, hM⟩
  by_cases hb : bx.restrictValue seq.bbox value = false
  · obtain ⟨hA, hM⟩ := valueResults_of_forall_ne hwf (hbx _ _ _ _ (hbox ▸ hb))
    exact ⟨_, _, by simp only [tsequenceAtValue, h, hb]; rfl,
      by simp only [tsequenceMinusValue, h, hb]; rfl, hA, hM⟩
  rw [Bool.not_eq_false] at hb
  have hper : periodOf (inst1 :: inst2 :: rest) seq.period.lowerInc seq.period.upperInc =
      seq.period := by
    rw [← h]
    exact hwf.period.symm
  have hs' : (inst1 :: inst2 :: rest).Pairwise fun a b => a.t < b.t := h ▸ hs
  obtain ⟨ats, hats, hA⟩ := tsequenceAtValueLoop_spec bx seq.linear seq.period.upperInc
    (List.cons_ne_nil inst2 rest) hs' (fun hl => h ▸ hcross hl) seq.period.lowerInc
  rw [hper, ← h] at hA
  have hat : tsequenceAtValue bt bx seq value = .ok ats := by
    simp only [tsequenceAtValue, h, hb]
    exact hats
  cases hlin : seq.linear
  · obtain ⟨mins, hmins, hM⟩ := tstepseqMinusValueLoop_spec bx seq.period.upperInc value
      (inst1 :: inst2 :: rest) [] seq.period.lowerInc (by simp) (by simpa using hs') (by simp)
      (fun hu => by simpa [h] using stepEnd_of_wellFormed hwf hlin hu (by simp [h])) (by simp)
    rw [List.nil_append, hper, ← h] at hM
    rw [hlin] at hA
    refine ⟨ats, mins, hat, ?_, hA, hM.minusValueResult hA⟩
    simp only [tsequenceMinusValue, h, hb, hlin]
    exact hmins
  · rw [hlin] at hats hA
    obtain ⟨mins, hmins, hM⟩ := tlinearseqMinusValueLoop_spec bx seq.period.upperInc (hbt hlin)
      (List.cons_ne_nil inst2 rest) hs' (h ▸ hcross hlin) seq.period.lowerInc hats
    rw [hper, ← h] at hM
    refine ⟨ats, mins, hat, ?_, hA, hM⟩
    simp only [tsequenceMinusValue, h, hb, hlin]
    exact hmins

end Value

/-- On a valid sequence with a sound box, provided each crossing of a linear segment
with `value` lies strictly inside the segment, `tsequence_at_value` and
`tsequence_minus_value` succeed and together split the sequence; the first covers an
instant of the period exactly when it takes `value`, every segment on which the
sequence is constantly `value`, and with step interpolation exactly the timestamps
where the sequence takes `value`. -/
theorem tsequence_value_restrictions_correct {bt : BaseType V} {bx : BBoxOps V B}
    {seq : TSequence V B} (value : V) (hbt : seq.linear = true → LawfulBaseType bt)
    (hbx : bx.RestrictValueSound) (hv : seq.Valid bt bx)
    (hcross : seq.linear = true → seq.instants.Chain' fun a b =>
      ∀ r ∈ tlinearseqIntersectionValue bt a b value, a.t < r.2 ∧ r.2 < b.t) :
    ∃ ats mins, tsequenceAtValue bt bx seq value = .ok ats ∧
      tsequenceMinusValue bt bx seq value = .ok mins ∧ SplitOf bt seq (ats ++ mins) ∧
      (∀ inst ∈ seq.instants, containsPeriodTimestamp seq.period inst.t = true →
        ((∃ r ∈ ats, containsPeriodTimestamp r.period inst.t = true) ↔ inst.value = value)) ∧
      seq.instants.Chain' (fun inst1 inst2 => inst1.value = value → inst2.value = value →
        ∀ t, inst1.t ≤ t → t ≤ inst2.t → containsPeriodTimestamp seq.period t = true →
          ∃ r ∈ ats, containsPeriodTimestamp r.period t = true) ∧
      (seq.linear = false → ∀ t, (∃ r ∈ ats, containsPeriodTimestamp r.period t = true) ↔
        seq.valueAt bt t = some value) := by
  obtain ⟨ats, mins, hat, hmin, hA, hM⟩ :=
    tsequenceValue_results hv.wellFormed hbt hbx hv.bbox hcross
  refine ⟨ats, mins, hat, hmin, splitOf_of_pieces (piecesOf_append.mpr ⟨hA.pieces, hM.pieces⟩)
      fun t => by rw [timesCovered_append, hM.partition], fun inst hinst ht => ?_,
    hA.const.imp fun _ _ h h1 h2 t ht1 ht2 ht => timesCovered_pos_iff.mp (h h1 h2 t ht1 ht2 ht),
    fun hlin t => ?_⟩
  · rw [← timesCovered_pos_iff, hA.samples inst hinst ht]
    split <;> simp_all
  · rw [← timesCovered_pos_iff, hA.step hlin t, TSequence.valueAt, hlin]
    by_cases hc : containsPeriodTimestamp seq.period t = true <;> simp [hc, apply_ite]

/-- The step float sequence `[1@0, 2@2]` is valid, so its restrictions to the value 1
split it; the linear float sequence `[0@0, 4@4]` is valid and crosses 2 at the inner
timestamp 2, so its restrictions to the value 2 split it. -/
theorem tsequence_value_restrictions_correct_floats :
    (⟨[⟨1, 0⟩, ⟨2, 2⟩], ⟨0, 2, true, true⟩, false, ⟨1, 2, 0, 2⟩⟩ : TSequence ℚ TBox).Valid
      (tfloat 0) (tnumberBBox id) ∧
    (∃ ats mins, tsequenceAtValue (tfloat 0) (tnumberBBox id)
        (⟨[⟨1, 0⟩, ⟨2, 2⟩], ⟨0, 2, true, true⟩, false, ⟨1, 2, 0, 2⟩⟩ : TSequence ℚ TBox) 1 = .ok ats ∧
      tsequenceMinusValue (tfloat 0) (tnumberBBox id)
        (⟨[⟨1, 0⟩, ⟨2, 2⟩], ⟨0, 2, true, true⟩, false, ⟨1, 2, 0, 2⟩⟩ : TSequence ℚ TBox) 1 = .ok mins ∧
      SplitOf (tfloat 0)
        (⟨[⟨1, 0⟩, ⟨2, 2⟩], ⟨0, 2, true, true⟩, false, ⟨1, 2, 0, 2⟩⟩ : TSequence ℚ TBox) (ats ++ mins)) ∧
    (⟨[⟨0, 0⟩, ⟨4, 4⟩], ⟨0, 4, true, true⟩, true, ⟨0, 4, 0, 4⟩⟩ : TSequence ℚ TBox).Valid
      (tfloat 0) (tnumberBBox id) ∧
    ([⟨0, 0⟩, ⟨4, 4⟩] : List (TInstant ℚ)).Chain' (fun a b =>
      ∀ r ∈ tlinearseqIntersectionValue (tfloat 0) a b 2, a.t < r.2 ∧ r.2 < b.t) ∧
    ∃ ats mins, tsequenceAtValue (tfloat 0) (tnumberBBox id)
        (⟨[⟨0, 0⟩, ⟨4, 4⟩], ⟨0, 4, true, true⟩, true, ⟨0, 4, 0, 4⟩⟩ : TSequence ℚ TBox) 2 = .ok ats ∧
      tsequenceMinusValue (tfloat 0) (tnumberBBox id)
        (⟨[⟨0, 0⟩, ⟨4, 4⟩], ⟨0, 4, true, true⟩, true, ⟨0, 4, 0, 4⟩⟩ : TSequence ℚ TBox) 2 = .ok mins ∧
      SplitOf (tfloat 0)
        (⟨[⟨0, 0⟩, ⟨4, 4⟩], ⟨0, 4, true, true⟩, true, ⟨0, 4, 0, 4⟩⟩ : TSequence ℚ TBox) (ats ++ mins) := by
  have hv : (⟨[⟨1, 0⟩, ⟨2, 2⟩], ⟨0, 2, true, true⟩, false, ⟨1, 2, 0, 2⟩⟩ :
      TSequence ℚ TBox).Valid (tfloat 0) (tnumberBBox id) := by
    simp [TSequence.valid_iff, lastTwo?, periodOf, lastT, tinstantarrNormalize,
      tinstantarrNormalizeLoop, tnumberBBox, tboxExpand]
  have hvl : (⟨[⟨0, 0⟩, ⟨4, 4⟩], ⟨0, 4, true, true⟩, true, ⟨0, 4, 0, 4⟩⟩ :
      TSequence ℚ TBox).Valid (tfloat 0) (tnumberBBox id) := by
    simp [TSequence.valid_iff, lastTwo?, periodOf, lastT, tinstantarrNormalize,
      tinstantarrNormalizeLoop, tnumberBBox, tboxExpand]
  have hcross : ([⟨0, 0⟩, ⟨4, 4⟩] : List (TInstant ℚ)).Chain' fun a b =>
      ∀ r ∈ tlinearseqIntersectionValue (tfloat 0) a b 2, a.t < r.2 ∧ r.2 < b.t := by
    have h2 : longOfDouble (4 * (2 / 4)) = 2 := by
      rw [mul_div_cancel₀ (2 : ℚ) four_ne_zero]; decide
    simp [tlinearseqIntersectionValue, tfloat, tnumberseqIntersectionValue,
      tnumberseqIntersectionFraction, h2]
  obtain ⟨ats, mins, hat, hmin, hsplit, -⟩ := tsequence_value_restrictions_correct 1
    (fun h => by cases h) (tnumberBBox_restrictValueSound id) hv (fun h => by cases h)
  obtain ⟨atsl, minsl, hatl, hminl, hsplitl, -⟩ := tsequence_value_restrictions_correct 2
    (fun _ => tfloat_lawful 0) (tnumberBBox_restrictValueSound id) hvl (fun _ => hcross)
  exact ⟨hv, ⟨ats, mins, hat, hmin, hsplit⟩, hvl, hcross, atsl, minsl, hatl, hminl, hsplitl⟩

/-! ## The least and greatest values -/

section Extreme

variable {V : Type} {toDouble : V → ℚ}

/-- The loop of `tsequence_min_value`, comparing the values as doubles, keeps the value
whose double is the minimum of the box that the instants expand. -/
lemma toDouble_tsequenceValueLoop_lt (rest : List (TInstant V)) (v : V) (box : TBox)
    (hv : toDouble v = box.xmin) :
    toDouble (tsequenceValueLoop (fun a b => decide (toDouble a < toDouble b)) v rest) =
      (rest.foldl (fun box i => tboxExpand box ⟨toDouble i.value, toDouble i.value, i.t, i.t⟩)
        box).xmin := by
  induction rest generalizing v box with
  | nil => exact hv
  | cons i rest ih =>
    apply ih
    simp only [tboxExpand, ← hv]
    by_cases h : toDouble i.value < toDouble v
    · simp [h, min_eq_right h.le]
    · simp [h, min_eq_left (not_lt.mp h)]

/-- The loop of `tsequence_max_value`, comparing the values as doubles, keeps the value
whose double is the maximum of the box that the instants expand. -/
lemma toDouble_tsequenceValueLoop_gt (rest : List (TInstant V)) (v : V) (box : TBox)
    (hv : toDouble v = box.xmax) :
    toDouble (tsequenceValueLoop (fun a b => decide (toDouble a > toDouble b)) v rest) =
      (rest.foldl (fun box i => tboxExpand box ⟨toDouble i.value, toDouble i.value, i.t, i.t⟩)
        box).xmax := by
  induction rest generalizing v box with
  | nil => exact hv
  | cons i rest ih =>
    apply ih
    simp only [tboxExpand, ← hv]
    by_cases h : toDouble v < toDouble i.value
    · simp [h, max_eq_right h.le]
    · simp [h, max_eq_left (not_lt.mp h)]

/-- On a valid temporal number whose values are read as doubles by `toDouble` and
converted back by `ofDouble`, the box branch of `tsequence_min_value` and
`tsequence_max_value` (for `int4` and `float8`) gives the value that their loop over the
instants finds when `datum_lt` and `datum_gt` compare the doubles. -/
theorem tsequenceMinMaxValue_box_eq_loop [DecidableEq V] {bt : BaseType V} (ofDouble : ℚ → V)
    (hof : ∀ v, ofDouble (toDouble v) = v) {seq : TSequence V TBox}
    (hv : seq.Valid bt (tnumberBBox toDouble)) :
    tsequenceMinValue (some ofDouble) (fun a b => decide (toDouble a < toDouble b)) seq =
        tsequenceMinValue none (fun a b => decide (toDouble a < toDouble b)) seq ∧
      tsequenceMaxValue (some ofDouble) (fun a b => decide (toDouble a > toDouble b)) seq =
        tsequenceMaxValue none (fun a b => decide (toDouble a > toDouble b)) seq := by
  obtain ⟨inst, rest, hi⟩ := List.exists_cons_of_ne_nil hv.nonempty
  have hbox := hv.bbox
  rw [hi] at hbox
  simp only [tsequenceMinValue, tsequenceMaxValue, tsequenceExtremeValue, Option.map_some', hi,
    List.head?_cons, List.tail_cons, hbox, tnumberBBox]
  rw [← toDouble_tsequenceValueLoop_lt rest inst.value _ rfl,
    ← toDouble_tsequenceValueLoop_gt rest inst.value _ rfl, hof, hof]
  exact ⟨rfl, rfl⟩

/-- The valid linear float sequence `[1@0, 3@2, 2@4]`. -/
theorem tsequenceMinMaxValue_box_eq_loop_floats :
    (⟨[⟨1, 0⟩, ⟨3, 2⟩, ⟨2, 4⟩], ⟨0, 4, true, true⟩, true, ⟨1, 3, 0, 4⟩⟩ : TSequence ℚ TBox).Valid
      (tfloat 0) (tnumberBBox id) ∧
    tsequenceMinValue (some id) (fun a b => decide (id a < id b))
        (⟨[⟨1, 0⟩, ⟨3, 2⟩, ⟨2, 4⟩], ⟨0, 4, true, true⟩, true, ⟨1, 3, 0, 4⟩⟩ : TSequence ℚ TBox) =
      tsequenceMinValue none (fun a b => decide (id a < id b))
        (⟨[⟨1, 0⟩, ⟨3, 2⟩, ⟨2, 4⟩], ⟨0, 4, true, true⟩, true, ⟨1, 3, 0, 4⟩⟩ : TSequence ℚ TBox) ∧
    tsequenceMaxValue (some id) (fun a b => decide (id a > id b))
        (⟨[⟨1, 0⟩, ⟨3, 2⟩, ⟨2, 4⟩], ⟨0, 4, true, true⟩, true, ⟨1, 3, 0, 4⟩⟩ : TSequence ℚ TBox) =
      tsequenceMaxValue none (fun a b => decide (id a > id b))
        (⟨[⟨1, 0⟩, ⟨3, 2⟩, ⟨2, 4⟩], ⟨0, 4, true, true⟩, true, ⟨1, 3, 0, 4⟩⟩ : TSequence ℚ TBox) := by
  have hv : (⟨[⟨1, 0⟩, ⟨3, 2⟩, ⟨2, 4⟩], ⟨0, 4, true, true⟩, true, ⟨1, 3, 0, 4⟩⟩ :
      TSequence ℚ TBox).Valid (tfloat 0) (tnumberBBox id) := by
    simp [TSequence.valid_iff, lastTwo?, periodOf, lastT, tinstantarrNormalize,
      tinstantarrNormalizeLoop, normalizeRedundant, tnumberBBox, tboxExpand, datumCollinear,
      tfloat, floatCollinear]
    norm_num
  exact ⟨hv, tsequenceMinMaxValue_box_eq_loop id (fun _ => rfl) hv⟩

end Extreme

end TemporalSequence
