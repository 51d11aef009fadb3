import TemporalSequence.Predicates
import TemporalSequence.Semantics
import Mathlib.Tactic.Linarith

/-!
# Ever/always comparisons and the range of a temporal float

A temporal float takes, at each timestamp of its period, a value between the values
of two of its instants. Against this, `tsequence_always_lt` answers false on every
linear sequence with a constant segment, whatever the base value, since the constant
case of `tlinearseq_always_lt1` compares the value of the segment with itself; and
`tfloatseq_range`, on a sequence that starts and ends at its minimum, takes the
inclusivity of the minimum from the wrong end of the period.
-/

namespace TemporalSequence

/-! ## The values of a temporal float -/

lemma tsequenceValueAtTimestamp1_tfloat_mem (ε : ℚ) (linear : Bool) {inst1 inst2 : TInstant ℚ}
    {t : ℤ} (h1 : inst1.t ≤ t) (h2 : t < inst2.t) :
    min inst1.value inst2.value ≤ tsequenceValueAtTimestamp1 (tfloat ε) inst1 inst2 linear t ∧
      tsequenceValueAtTimestamp1 (tfloat ε) inst1 inst2 linear t ≤ max inst1.value inst2.value := by
  unfold tsequenceValueAtTimestamp1
  split_ifs
  · exact ⟨min_le_left _ _, le_max_left _ _⟩
  · exact ⟨min_le_right _ _, le_max_right _ _⟩
  · -- the interpolation at a fraction of the segment in `[0, 1]`
    set r : ℚ := ((t - inst1.t : ℤ) : ℚ) / ((inst2.t - inst1.t : ℤ) : ℚ)
    have hd : (0 : ℚ) < ((inst2.t - inst1.t : ℤ) : ℚ) := by exact_mod_cast sub_pos.mpr (h1.trans_lt h2)
    have hr0 : 0 ≤ r := div_nonneg (by exact_mod_cast sub_nonneg.mpr h1) hd.le
    have hr1 : r ≤ 1 := (div_le_one hd).mpr (by exact_mod_cast sub_le_sub_right h2.le _)
    have hmin1 := mul_le_mul_of_nonneg_left (min_le_left inst1.value inst2.value) (sub_nonneg.mpr hr1)
    have hmin2 := mul_le_mul_of_nonneg_left (min_le_right inst1.value inst2.value) hr0
    have hmax1 := mul_le_mul_of_nonneg_left (le_max_left inst1.value inst2.value) (sub_nonneg.mpr hr1)
    have hmax2 := mul_le_mul_of_nonneg_left (le_max_right inst1.value inst2.value) hr0
    simp only [tfloat]
    constructor <;> linarith

/-- Every value of an array of float instants lies between the values of two of its
instants. -/
lemma instantsValueAt_tfloat_mem (ε : ℚ) (linear : Bool) {instants : List (TInstant ℚ)} {t : ℤ}
    {x : ℚ} (h : instantsValueAt (tfloat ε) linear instants t = some x) :
    ∃ a ∈ instants, ∃ b ∈ instants, a.value ≤ x ∧ x ≤ b.value := by
  induction instants with
  | nil => simp [instantsValueAt] at h
  | cons inst rest ih =>
    match rest, ih, h with
    | [], _, h =>
      simp only [instantsValueAt, ite_eq_right_iff, Option.some.injEq] at h
      split_ifs at h
      cases h
      exact ⟨inst, List.mem_cons_self _ _, inst, List.mem_cons_self _ _, le_rfl, le_rfl⟩
    | inst2 :: rest, ih, h =>
      rw [instantsValueAt_cons_cons] at h
      split_ifs at h with h2 h1
      · obtain ⟨hmin, hmax⟩ := tsequenceValueAtTimestamp1_tfloat_mem ε linear h1 h2
        rw [Option.some.inj h] at hmin hmax
        have hmem1 : inst ∈ inst :: inst2 :: rest := List.mem_cons_self _ _
        have hmem2 : inst2 ∈ inst :: inst2 :: rest := List.mem_cons_of_mem _ (List.mem_cons_self _ _)
        obtain ⟨a, ha, hax⟩ : ∃ a ∈ inst :: inst2 :: rest, a.value ≤ x := by
          rcases min_le_iff.mp hmin with h | h
          exacts [⟨inst, hmem1, h⟩, ⟨inst2, hmem2, h⟩]
        obtain ⟨b, hb, hxb⟩ : ∃ b ∈ inst :: inst2 :: rest, x ≤ b.value := by
          rcases le_max_iff.mp hmax with h | h
          exacts [⟨inst, hmem1, h⟩, ⟨inst2, hmem2, h⟩]
        exact ⟨a, ha, b, hb, hax, hxb⟩
      · obtain ⟨a, ha, b, hb, hab⟩ := ih h
        exact ⟨a, List.mem_cons_of_mem _ ha, b, List.mem_cons_of_mem _ hb, hab⟩

theorem TSequence.valueAt_tfloat_mem {B : Type} (ε : ℚ) {seq : TSequence ℚ B} {t : ℤ} {x : ℚ}
    (h : seq.valueAt (tfloat ε) t = some x) :
    ∃ a ∈ seq.instants, ∃ b ∈ seq.instants, a.value ≤ x ∧ x ≤ b.value := by
  unfold TSequence.valueAt at h
  split_ifs at h
  exact instantsValueAt_tfloat_mem ε seq.linear h

/-! ## The segment loops -/

/-- The segment loop of `tsequence_always_lt` fails as soon as one segment fails,
whatever the bound flags it is given. -/
lemma segmentsAlways_eq_false {α : Type} {p : α → α → Bool → Bool → Bool} {a b : α}
    (hp : ∀ lowerInc upperInc, p a b lowerInc upperInc = false) (upperInc : Bool) (post : List α) :
    ∀ (pre : List α) (x : α) (lowerInc : Bool) (rest : List α), x :: rest = pre ++ a :: b :: post →
      segmentsAlways p upperInc x lowerInc rest = false
  | [], x, lowerInc, rest, h => by
    obtain ⟨rfl, rfl⟩ := List.cons_eq_cons.mp h
    simp [segmentsAlways, hp]
  | c :: pre, x, lowerInc, rest, h => by
    simp only [List.cons_append, List.cons.injEq] at h
    obtain ⟨rfl, rfl⟩ := h
    obtain ⟨y, rest', hy⟩ := List.exists_cons_of_ne_nil (List.append_ne_nil_of_right_ne_nil pre
      (List.cons_ne_nil a (b :: post)))
    rw [hy, segmentsAlways, segmentsAlways_eq_false hp upperInc post pre y true rest' hy.symm,
      Bool.and_false]

/-! ## Always below a value -/

@[simp] lemma tlinearseqAlwaysLt1_self {V : Type} [LinearOrder V] (value1 : V) (lowerInc upperInc : Bool)
    (value : V) : tlinearseqAlwaysLt1 value1 value1 lowerInc upperInc value = false := by
  simp [tlinearseqAlwaysLt1]

/-- On a valid linear temporal float with a constant segment and instant values below
`value`, the sequence is below `value` at every timestamp of its period, but
`tsequence_always_lt` answers false, whatever the box test answers. -/
theorem tsequence_always_lt_constant_segment (ε : ℚ) (tests : BBoxTests ℚ TBox)
    {seq : TSequence ℚ TBox} {value : ℚ} (hv : seq.Valid (tfloat ε) (tnumberBBox id))
    (hlin : seq.linear = true)
    (hconst : ∃ pre post : List (TInstant ℚ), ∃ inst1 inst2 : TInstant ℚ,
      seq.instants = pre ++ inst1 :: inst2 :: post ∧ inst1.value = inst2.value)
    (hbelow : ∀ inst ∈ seq.instants, inst.value < value) :
    (∀ t, containsPeriodTimestamp seq.period t = true →
      ∃ x, seq.valueAt (tfloat ε) t = some x ∧ x < value) ∧
    tsequenceAlwaysLt tests seq value = false := by
  obtain ⟨pre, post, inst1, inst2, hinst, heq⟩ := hconst
  refine ⟨fun t ht => ?_, ?_⟩
  · obtain ⟨x, hx⟩ := Option.isSome_iff_exists.mp
      ((TSequence.valueAt_isSome hv.wellFormed t).trans ht)
    obtain ⟨-, -, b, hb, -, hxb⟩ := TSequence.valueAt_tfloat_mem ε hx
    exact ⟨x, hx, hxb.trans_lt (hbelow b hb)⟩
  · obtain ⟨first, rest, hfirst⟩ := List.exists_cons_of_ne_nil hv.nonempty
    have hlen : ¬((!seq.linear || decide (seq.instants.length = 1)) = true) := by
      simp [hlin, hinst]
      omega
    have hseg := segmentsAlways_eq_false
      (p := fun value1 value2 lowerInc upperInc => tlinearseqAlwaysLt1 value1 value2 lowerInc upperInc value)
      (a := inst1.value) (b := inst2.value) (by simp [heq]) seq.period.upperInc
      (post.map TInstant.value) (pre.map TInstant.value) first.value seq.period.lowerInc
      (rest.map TInstant.value) (by rw [← List.map_cons, ← hfirst, hinst]; simp)
    unfold tsequenceAlwaysLt
    rw [if_neg hlen, hfirst]
    split_ifs
    · rfl
    · exact hseg

/-- The linear temporal float `[1@0, 1@1]` is below 2 throughout, but
`tsequence_always_lt` answers false. -/
theorem tsequence_always_lt_constant_segment_one :
    (⟨[⟨1, 0⟩, ⟨1, 1⟩], ⟨0, 1, true, true⟩, true, ⟨1, 1, 0, 1⟩⟩ : TSequence ℚ TBox).Valid
      (tfloat (1 / 100000)) (tnumberBBox id) ∧
    (∀ t, containsPeriodTimestamp ⟨0, 1, true, true⟩ t = true →
      ∃ x, (⟨[⟨1, 0⟩, ⟨1, 1⟩], ⟨0, 1, true, true⟩, true, ⟨1, 1, 0, 1⟩⟩ : TSequence ℚ TBox).valueAt
        (tfloat (1 / 100000)) t = some x ∧ x < 2) ∧
    tsequenceAlwaysLt ⟨fun _ _ => true, fun _ _ => true, fun _ _ => true, fun _ _ => true, true, true⟩
      (⟨[⟨1, 0⟩, ⟨1, 1⟩], ⟨0, 1, true, true⟩, true, ⟨1, 1, 0, 1⟩⟩ : TSequence ℚ TBox) 2 = false := by
  have hv : (⟨[⟨1, 0⟩, ⟨1, 1⟩], ⟨0, 1, true, true⟩, true, ⟨1, 1, 0, 1⟩⟩ : TSequence ℚ TBox).Valid
      (tfloat (1 / 100000)) (tnumberBBox id) := by
    simp [TSequence.valid_iff, lastTwo?, periodOf, lastT, tinstantarrNormalize,
      tinstantarrNormalizeLoop, tnumberBBox, tboxExpand]
  exact ⟨hv, tsequence_always_lt_constant_segment (1 / 100000) _ hv rfl
    ⟨[], [], ⟨1, 0⟩, ⟨1, 1⟩, rfl, rfl⟩ (by norm_num)⟩

/-! ## The range of a linear temporal float -/

/-- The loop of `tfloatseq_range` marks an extreme inclusive exactly when it was, or
when an inner value reaches it; breaking out of the loop changes nothing. -/
lemma tfloatseqRangeLoop_eq (min max : ℚ) (values : List ℚ) (minInc maxInc : Bool) :
    tfloatseqRangeLoop min max values minInc maxInc =
      (minInc || values.any (min = ·), maxInc || values.any (max = ·)) := by
  induction values generalizing minInc maxInc with
  | nil => simp [tfloatseqRangeLoop]
  | cons value rest ih =>
    simp only [tfloatseqRangeLoop, ih, List.any_cons]
    split_ifs with h
    · simp only [Bool.and_eq_true, Bool.or_eq_true] at h
      obtain ⟨h1 | h1, h2 | h2⟩ := h <;> simp [h1, h2]
    · simp [Bool.or_assoc]

/-- On a valid temporal float that starts and ends at its minimum, included at its
start and excluded at its end, and whose inner instants do not reach it, the minimum
is taken at the start of the period, but `tfloatseq_range` excludes it: the ends are
read in swapped order, so the inclusivity of the end bound is used. -/
theorem tfloatseq_range_excludes_start_min (ε : ℚ) {seq : TSequence ℚ TBox}
    (hv : seq.Valid (tfloat ε) (tnumberBBox id)) {first last : TInstant ℚ}
    {inner : List (TInstant ℚ)} (hinst : seq.instants = first :: (inner ++ [last]))
    (hends : first.value = last.value) (hmin : seq.bbox.xmin = first.value)
    (hne : seq.bbox.xmin ≠ seq.bbox.xmax) (hinner : ∀ inst ∈ inner, inst.value ≠ first.value)
    (hlow : seq.period.lowerInc = true) (hup : seq.period.upperInc = false) :
    seq.valueAt (tfloat ε) first.t = some first.value ∧
      rangeContainsElem (tfloatseqRange seq) first.value = false := by
  have hs : (first :: (inner ++ [last])).Pairwise fun a b => a.t < b.t := by
    rw [← hinst]
    exact chain'_t_iff_pairwise.mp hv.increasing
  have hlt : first.t < last.t := List.rel_of_pairwise_cons hs (by simp)
  have hlast : (first :: (inner ++ [last])).getLast? = some last := by
    rw [← List.cons_append, List.getLast?_concat]
  constructor
  · have hper := hv.period
    rw [hinst] at hper
    unfold TSequence.valueAt
    rw [hper, hinst, instantsValueAt_head hs]
    simp [containsPeriodTimestamp, periodOf, hlow, hup, lastT, hlast, hlt]
  · have hnot : (inner.map TInstant.value).any (first.value = ·) = false :=
      List.any_eq_false.mpr fun x hx h => by
        obtain ⟨inst, hi, rfl⟩ := List.mem_map.mp hx
        exact hinner inst hi (of_decide_eq_true h).symm
    rw [hmin] at hne
    simp only [tfloatseqRange, hinst, hlast, hmin, if_neg hne, List.head?_cons, Option.map_some',
      Option.getD_some, ← hends, lt_irrefl, if_false, hup, hlow]
    simp [rangeContainsElem, tfloatseqRangeLoop_eq, hnot]

/-- The linear temporal float `[0@0, 5@1, 0@2)` takes 0 at its start, but
`tfloatseq_range` returns `(0, 5]`. -/
theorem tfloatseq_range_excludes_start_min_zero :
    (⟨[⟨0, 0⟩, ⟨5, 1⟩, ⟨0, 2⟩], ⟨0, 2, true, false⟩, true, ⟨0, 5, 0, 2⟩⟩ : TSequence ℚ TBox).Valid
      (tfloat (1 / 100000)) (tnumberBBox id) ∧
    (⟨[⟨0, 0⟩, ⟨5, 1⟩, ⟨0, 2⟩], ⟨0, 2, true, false⟩, true, ⟨0, 5, 0, 2⟩⟩ : TSequence ℚ TBox).valueAt
      (tfloat (1 / 100000)) 0 = some 0 ∧
    rangeContainsElem (tfloatseqRange
      ⟨[⟨0, 0⟩, ⟨5, 1⟩, ⟨0, 2⟩], ⟨0, 2, true, false⟩, true, ⟨0, 5, 0, 2⟩⟩) 0 = false := by
  have hv : (⟨[⟨0, 0⟩, ⟨5, 1⟩, ⟨0, 2⟩], ⟨0, 2, true, false⟩, true, ⟨0, 5, 0, 2⟩⟩ :
      TSequence ℚ TBox).Valid (tfloat (1 / 100000)) (tnumberBBox id) := by
    simp [TSequence.valid_iff, lastTwo?, periodOf, lastT, tinstantarrNormalize,
      tinstantarrNormalizeLoop, normalizeRedundant, datumCollinear, tfloat, floatCollinear,
      tnumberBBox, tboxExpand]
    norm_num
  exact ⟨hv, tfloatseq_range_excludes_start_min (1 / 100000) hv
    (show _ = (⟨0, 0⟩ : TInstant ℚ) :: ([⟨5, 1⟩] ++ [⟨0, 2⟩]) from rfl) rfl rfl (by norm_num)
    (by norm_num) rfl rfl⟩

end TemporalSequence
