import TemporalSequence.Proofs.Pieces
import TemporalSequence.RestrictValue

/-!
# Restricting a segment to a value

`tsequence_at_value1` gives the part of one segment where it takes a value and
`tlinearseq_minus_value1` the parts of a linear segment where it does not. What the
segment loops return is described by `AtValueResult` and `MinusValueResult`, and each
of the two functions is shown to return such a result for its segment, in every branch:
a constant segment, a step segment, an end taking the value, and a crossing.
-/

namespace TemporalSequence

variable {V B : Type} [DecidableEq V]

/-- What the segment loop of `tsequence_at_value` returns for the instant array
`instants` in its period `p`: pieces of the array that cover, with step interpolation,
exactly the timestamps where the array takes `value`; with either interpolation an
instant of the array exactly when it takes `value`, and every segment on which the
array is constantly `value`. -/
structure AtValueResult (bt : BaseType V) (linear : Bool) (value : V)
    (instants : List (TInstant V)) (p : Period) (seqs : List (TSequence V B)) : Prop where
  pieces : PiecesOf bt linear instants p seqs
  step : linear = false → ∀ t, timesCovered seqs t =
    if containsPeriodTimestamp p t = true ∧ instantsValueAt bt false instants t = some value
    then 1 else 0
  samples : ∀ inst ∈ instants, containsPeriodTimestamp p inst.t = true →
    timesCovered seqs inst.t = if inst.value = value then 1 else 0
  const : instants.Chain' fun inst1 inst2 => inst1.value = value → inst2.value = value →
    ∀ t, inst1.t ≤ t → t ≤ inst2.t → containsPeriodTimestamp p t = true → 0 < timesCovered seqs t

/-- What the loops of `tsequence_minus_value` return for the instant array `instants`
in its period `p`, next to what `tsequence_at_value` returns for it, `ats`: pieces of
the array that cover, with `ats`, every timestamp of `p` exactly once. -/
structure MinusValueResult (bt : BaseType V) (linear : Bool) (instants : List (TInstant V))
    (p : Period) (ats seqs : List (TSequence V B)) : Prop where
  pieces : PiecesOf bt linear instants p seqs
  partition : ∀ t, timesCovered ats t + timesCovered seqs t =
    if containsPeriodTimestamp p t = true then 1 else 0

section Segment

variable {bt : BaseType V} {bx : BBoxOps V B} {inst1 inst2 : TInstant V}
  {linear lowerInc upperInc : Bool} {value : V} (h12 : inst1.t < inst2.t)
include h12

lemma instantsValueAt_pair {t : ℤ}
    (ht : containsPeriodTimestamp ⟨inst1.t, inst2.t, lowerInc, upperInc⟩ t = true) :
    instantsValueAt bt linear [inst1, inst2] t =
      some (tsequenceValueAtTimestamp1 bt inst1 inst2 linear t) := by
  have hb := bounds_of_containsPeriodTimestamp ht
  exact instantsValueAt_of_getElem? (by simpa using h12) (m := 0) rfl rfl hb.1 hb.2

/-- Pieces of a segment that cover exactly the timestamps where it takes `value` are
what `tsequence_at_value1` should return. -/
lemma atValueResult_pair_of_exact {seqs : List (TSequence V B)}
    (hpieces : PiecesOf bt linear [inst1, inst2] ⟨inst1.t, inst2.t, lowerInc, upperInc⟩ seqs)
    (hexact : ∀ t, timesCovered seqs t =
      if containsPeriodTimestamp ⟨inst1.t, inst2.t, lowerInc, upperInc⟩ t = true ∧
        instantsValueAt bt linear [inst1, inst2] t = some value then 1 else 0) :
    AtValueResult bt linear value [inst1, inst2] ⟨inst1.t, inst2.t, lowerInc, upperInc⟩ seqs where
  pieces := hpieces
  step h t := by
    subst h
    exact hexact t
  samples inst hinst ht := by
    rw [hexact, instantsValueAt_pair h12 ht]
    rcases List.mem_pair.mp hinst with rfl | rfl
    · simp [ht]
    · simp [ht, h12]
  const := List.chain'_pair.mpr fun hv1 hv2 t _ _ ht => by
    rw [hexact, instantsValueAt_pair h12 ht,
      tsequenceValueAtTimestamp1_const (hv1.trans hv2.symm), hv1]
    simp [ht]

omit h12 in
/-- On a segment with distinct end values and linear interpolation, pieces covering
each end in the period exactly when it takes `value` are what `tsequence_at_value1`
should return. -/
lemma atValueResult_pair_linear (hc : inst1.value ≠ inst2.value) {seqs : List (TSequence V B)}
    (hpieces : PiecesOf bt true [inst1, inst2] ⟨inst1.t, inst2.t, lowerInc, upperInc⟩ seqs)
    (hends : ∀ inst ∈ [inst1, inst2],
      containsPeriodTimestamp ⟨inst1.t, inst2.t, lowerInc, upperInc⟩ inst.t = true →
        timesCovered seqs inst.t = if inst.value = value then 1 else 0) :
    AtValueResult bt true value [inst1, inst2] ⟨inst1.t, inst2.t, lowerInc, upperInc⟩ seqs where
  pieces := hpieces
  step h := absurd h (by decide)
  samples := hends
  const := List.chain'_pair.mpr fun hv1 hv2 => absurd (hv1.trans hv2.symm) hc

/-- On a constant segment `tsequence_at_value1` keeps the whole segment or nothing. -/
lemma tsequenceAtValue1_const (hc : inst1.value = inst2.value) :
    ∃ res, tsequenceAtValue1 bt bx inst1 inst2 linear lowerInc upperInc value = .ok res ∧
      AtValueResult bt linear value [inst1, inst2] ⟨inst1.t, inst2.t, lowerInc, upperInc⟩
        res.toList := by
  have hval : ∀ t, containsPeriodTimestamp ⟨inst1.t, inst2.t, lowerInc, upperInc⟩ t = true →
      instantsValueAt bt linear [inst1, inst2] t = some inst1.value := fun t ht => by
    rw [instantsValueAt_pair h12 ht, tsequenceValueAtTimestamp1_const hc]
  by_cases hv : inst1.value = value
  · obtain ⟨seq, hseq⟩ := tsequenceMake_pair_ok bt bx linear lowerInc upperInc h12 fun _ _ => hc
    refine ⟨some seq, ?_, atValueResult_pair_of_exact h12
      (piecesOf_tsequenceMake hseq fun t ht => ⟨ht, rfl⟩) fun t => ?_⟩
    · simp only [tsequenceAtValue1]
      rw [if_pos hc, if_neg (not_not.mpr hv), hseq]
      rfl
    · by_cases ht : containsPeriodTimestamp ⟨inst1.t, inst2.t, lowerInc, upperInc⟩ t = true
      · simp [(tsequenceMake_period hseq).1, ht, hval t ht, hv]
      · simp [(tsequenceMake_period hseq).1, ht]
  · refine ⟨none, ?_, atValueResult_pair_of_exact h12 (by simp) fun t => ?_⟩
    · simp only [tsequenceAtValue1]
      rw [if_pos hc, if_pos hv]
      rfl
    · by_cases ht : containsPeriodTimestamp ⟨inst1.t, inst2.t, lowerInc, upperInc⟩ t = true
      · simp [ht, hval t ht, hv]
      · simp [ht]

/-- On a step segment with distinct end values `tsequence_at_value1` keeps the
segment up to its end when it starts with `value`, and otherwise its end instant when
the period contains it and it takes `value`. -/
lemma tsequenceAtValue1_step (hc : inst1.value ≠ inst2.value) :
    ∃ res, tsequenceAtValue1 bt bx inst1 inst2 false lowerInc upperInc value = .ok res ∧
      AtValueResult bt false value [inst1, inst2] ⟨inst1.t, inst2.t, lowerInc, upperInc⟩
        res.toList := by
  have hval : ∀ t, containsPeriodTimestamp ⟨inst1.t, inst2.t, lowerInc, upperInc⟩ t = true →
      instantsValueAt bt false [inst1, inst2] t =
        some (if t < inst2.t then inst1.value else inst2.value) := fun t ht => by
    have hb := bounds_of_containsPeriodTimestamp ht
    rw [instantsValueAt_pair h12 ht]
    split_ifs with h2
    · rw [tsequenceValueAtTimestamp1_step h2]
    · rw [show t = inst2.t by dsimp only at hb; omega, tsequenceValueAtTimestamp1_end h12]
  by_cases hv1 : inst1.value = value
  · subst hv1
    obtain ⟨seq, hseq⟩ := tsequenceMake_pair_ok bt bx false lowerInc false
      (show inst1.t < (⟨inst1.value, inst2.t⟩ : TInstant V).t from h12) fun _ _ => rfl
    have hper : ∀ t, containsPeriodTimestamp ⟨inst1.t, inst2.t, lowerInc, false⟩ t =
        (containsPeriodTimestamp ⟨inst1.t, inst2.t, lowerInc, upperInc⟩ t && decide (t < inst2.t)) := by
      intro t
      cases lowerInc <;> cases upperInc <;>
        simp only [containsPeriodTimestamp, Bool.false_and, Bool.true_and, Bool.or_false,
          Bool.and_false, beq_iff_eq] <;> by_cases h : t < inst2.t <;> simp [h]
    refine ⟨some seq, ?_, atValueResult_pair_of_exact h12
      (piecesOf_tsequenceMake hseq fun t ht => ?_) fun t => ?_⟩
    · simp only [tsequenceAtValue1]
      rw [if_neg hc]
      simp [hseq]
    · have ht' : containsPeriodTimestamp ⟨inst1.t, inst2.t, lowerInc, false⟩ t = true := ht
      have hin : containsPeriodTimestamp ⟨inst1.t, inst2.t, lowerInc, upperInc⟩ t = true ∧
          t < inst2.t := by simpa [hper] using ht'
      have h12' : inst1.t < (⟨inst1.value, inst2.t⟩ : TInstant V).t := h12
      refine ⟨hin.1, ?_⟩
      rw [hval t hin.1, if_pos hin.2, instantsValueAt_pair h12' ht']
      simp [tsequenceValueAtTimestamp1]
    · simp only [Option.toList_some, timesCovered_cons, timesCovered_nil, zero_add,
        (tsequenceMake_period hseq).1, periodOf_pair, hper]
      by_cases ht : containsPeriodTimestamp ⟨inst1.t, inst2.t, lowerInc, upperInc⟩ t = true
      · by_cases h2 : t < inst2.t <;> simp [ht, hval t ht, h2, Ne.symm hc]
      · simp [ht]
  · by_cases hv2 : upperInc = true ∧ value = inst2.value
    · obtain ⟨rfl, rfl⟩ := hv2
      obtain ⟨seq, hseq⟩ := tsequenceMake_single_ok bt bx false inst2
      have ht2 : containsPeriodTimestamp ⟨inst1.t, inst2.t, lowerInc, true⟩ inst2.t = true := by
        simp [containsPeriodTimestamp, h12]
      refine ⟨some seq, ?_, atValueResult_pair_of_exact h12
        (piecesOf_single hseq ht2 (by rw [hval _ ht2, if_neg (lt_irrefl _)])) fun t => ?_⟩
      · simp only [tsequenceAtValue1]
        rw [if_neg hc]
        simp [hc, hseq]
      · simp only [Option.toList_some, timesCovered_cons, timesCovered_nil, zero_add,
          (tsequenceMake_period hseq).1, periodOf_singleton, containsPeriodTimestamp_instant]
        by_cases ht : containsPeriodTimestamp ⟨inst1.t, inst2.t, lowerInc, true⟩ t = true
        · rw [hval t ht]
          by_cases h2 : t < inst2.t
          · simp [h2, h2.ne, hc]
          · have hb := bounds_of_containsPeriodTimestamp ht
            simp [show t = inst2.t by dsimp only at hb; omega, ht2]
        · have : t ≠ inst2.t := fun h => ht (h ▸ ht2)
          simp [ht, this]
    · refine ⟨none, ?_, atValueResult_pair_of_exact h12 (by simp) fun t => ?_⟩
      · simp only [tsequenceAtValue1]
        rw [if_neg hc]
        simp [hv1, hv2]
        rfl
      · by_cases ht : containsPeriodTimestamp ⟨inst1.t, inst2.t, lowerInc, upperInc⟩ t = true
        · rw [hval t ht]
          by_cases h2 : t < inst2.t
          · simp [h2, hv1]
          · have hui : upperInc = true := ((containsPeriodTimestamp_mk.mp ht).2.resolve_left h2).1
            have hv2' : inst2.value ≠ value := fun h => hv2 ⟨hui, h.symm⟩
            simp [h2, hv2']
        · simp [ht]

/-- On a linear segment with distinct end values `tsequence_at_value1` keeps an end in
the period that takes `value`, and otherwise the crossing with `value`, if any. -/
lemma tsequenceAtValue1_linear (hc : inst1.value ≠ inst2.value)
    (hcross : ∀ r ∈ tlinearseqIntersectionValue bt inst1 inst2 value,
      inst1.t < r.2 ∧ r.2 < inst2.t) :
    ∃ res, tsequenceAtValue1 bt bx inst1 inst2 true lowerInc upperInc value = .ok res ∧
      AtValueResult bt true value [inst1, inst2] ⟨inst1.t, inst2.t, lowerInc, upperInc⟩
        res.toList := by
  have hv1t : instantsValueAt bt true [inst1, inst2] inst1.t = some inst1.value :=
    instantsValueAt_head (by simpa using h12)
  have hv2t : instantsValueAt bt true [inst1, inst2] inst2.t = some inst2.value := by
    rw [instantsValueAt_cons_of_le le_rfl]
    simp [instantsValueAt]
  by_cases hv1 : inst1.value = value
  · subst hv1
    cases lowerInc
    · refine ⟨none, by simp [tsequenceAtValue1, hc]; rfl, atValueResult_pair_linear hc (by simp)
        fun inst hinst ht => ?_⟩
      rcases List.mem_pair.mp hinst with rfl | rfl
      · simp [containsPeriodTimestamp] at ht
      · simp [Ne.symm hc]
    · obtain ⟨seq, hseq⟩ := tsequenceMake_single_ok bt bx true inst1
      refine ⟨some seq, by simp [tsequenceAtValue1, hc, hseq], atValueResult_pair_linear hc
        (piecesOf_single hseq (by simp [containsPeriodTimestamp, h12]) hv1t)
        fun inst hinst ht => ?_⟩
      rcases List.mem_pair.mp hinst with rfl | rfl
      · simp [(tsequenceMake_period hseq).1]
      · simp [(tsequenceMake_period hseq).1, h12.ne', Ne.symm hc]
  by_cases hv2 : inst2.value = value
  · subst hv2
    cases upperInc
    · refine ⟨none, by simp [tsequenceAtValue1, hc, hv1]; rfl, atValueResult_pair_linear hc
        (by simp) fun inst hinst ht => ?_⟩
      rcases List.mem_pair.mp hinst with rfl | rfl
      · simp [hc]
      · simp [containsPeriodTimestamp] at ht
    · obtain ⟨seq, hseq⟩ := tsequenceMake_single_ok bt bx true inst2
      refine ⟨some seq, by simp [tsequenceAtValue1, hc, hv1, hseq], atValueResult_pair_linear hc
        (piecesOf_single hseq (by simp [containsPeriodTimestamp, h12]) hv2t)
        fun inst hinst ht => ?_⟩
      rcases List.mem_pair.mp hinst with rfl | rfl
      · simp [(tsequenceMake_period hseq).1, h12.ne, hc]
      · simp [(tsequenceMake_period hseq).1]
  have hends : ∀ (seqs : List (TSequence V B)), (∀ t, timesCovered seqs t ≠ 0 →
      inst1.t < t ∧ t < inst2.t) → ∀ inst ∈ [inst1, inst2],
      containsPeriodTimestamp ⟨inst1.t, inst2.t, lowerInc, upperInc⟩ inst.t = true →
        timesCovered seqs inst.t = if inst.value = value then 1 else 0 := by
    intro seqs hseqs inst hinst _
    rcases List.mem_pair.mp hinst with rfl | rfl
    · rw [if_neg hv1]
      by_contra h
      exact lt_irrefl _ (hseqs _ h).1
    · rw [if_neg hv2]
      by_contra h
      exact lt_irrefl _ (hseqs _ h).2
  cases hr : tlinearseqIntersectionValue bt inst1 inst2 value with
  | none =>
    exact ⟨none, by simp [tsequenceAtValue1, hc, hv1, hv2, hr]; rfl,
      atValueResult_pair_linear hc (by simp) (hends [] (by simp))⟩
  | some r =>
    obtain ⟨projvalue, t⟩ := r
    obtain ⟨ht1, ht2⟩ := hcross _ hr
    obtain ⟨seq, hseq⟩ := tsequenceMake_single_ok bt bx true ⟨projvalue, t⟩
    have hpt : containsPeriodTimestamp ⟨inst1.t, inst2.t, lowerInc, upperInc⟩ t = true := by
      simp [containsPeriodTimestamp_mk, ht1, ht2]
    refine ⟨some seq, by simp [tsequenceAtValue1, hc, hv1, hv2, hr, hseq], atValueResult_pair_linear hc
      (piecesOf_single hseq hpt ?_) (hends _ fun t' ht' => ?_)⟩
    · rw [instantsValueAt_pair h12 hpt]
      exact congrArg some (tlinearseqIntersectionValue_value hr).symm
    · simp only [Option.toList_some, timesCovered_cons, timesCovered_nil, zero_add,
        (tsequenceMake_period hseq).1, periodOf_singleton, containsPeriodTimestamp_instant] at ht'
      split_ifs at ht' with h
      · simp only [decide_eq_true_eq] at h
        exact h ▸ ⟨ht1, ht2⟩
      · exact absurd rfl ht'

/-- `tsequence_at_value1` succeeds with what the segment loop expects of one segment. -/
theorem tsequenceAtValue1_spec (bx : BBoxOps V B) (lowerInc upperInc : Bool)
    (hcross : linear = true → ∀ r ∈ tlinearseqIntersectionValue bt inst1 inst2 value,
      inst1.t < r.2 ∧ r.2 < inst2.t) :
    ∃ res, tsequenceAtValue1 bt bx inst1 inst2 linear lowerInc upperInc value = .ok res ∧
      AtValueResult bt linear value [inst1, inst2] ⟨inst1.t, inst2.t, lowerInc, upperInc⟩
        res.toList := by
  by_cases hc : inst1.value = inst2.value
  · exact tsequenceAtValue1_const h12 hc
  cases linear
  · exact tsequenceAtValue1_step h12 hc
  · exact tsequenceAtValue1_linear h12 hc (hcross rfl)

omit h12 in
lemma piecesOf_pair_whole {seq : TSequence V B}
    (h : tsequenceMake bt bx [inst1, inst2] lowerInc upperInc linear false = .ok seq) :
    PiecesOf bt linear [inst1, inst2] ⟨inst1.t, inst2.t, lowerInc, upperInc⟩ [seq] :=
  piecesOf_tsequenceMake h fun _ ht => ⟨ht, rfl⟩

lemma piecesOf_pair_bounds {seq : TSequence V B} {lowerInc' upperInc' : Bool}
    (h : tsequenceMake bt bx [inst1, inst2] lowerInc' upperInc' linear false = .ok seq)
    (hl : lowerInc' = true → lowerInc = true) (hu : upperInc' = true → upperInc = true) :
    PiecesOf bt linear [inst1, inst2] ⟨inst1.t, inst2.t, lowerInc, upperInc⟩ [seq] :=
  piecesOf_tsequenceMake h fun t ht => ⟨by
    simp only [periodOf_pair, containsPeriodTimestamp_mk] at ht ⊢
    rcases ht with ⟨h1 | h1, h2 | h2⟩ <;> first | omega | simp_all, rfl⟩

/-- `tlinearseq_minus_value1` succeeds with pieces of the segment that cover, with what
`tsequence_at_value1` returns, each timestamp of the segment once. -/
theorem tlinearseqMinusValue1_spec (hbt : LawfulBaseType bt)
    (hcross : ∀ r ∈ tlinearseqIntersectionValue bt inst1 inst2 value,
      inst1.t < r.2 ∧ r.2 < inst2.t) {res : Option (TSequence V B)}
    (hat : tsequenceAtValue1 bt bx inst1 inst2 true lowerInc upperInc value = .ok res) :
    ∃ seqs, tlinearseqMinusValue1 bt bx inst1 inst2 lowerInc upperInc value = .ok seqs ∧
      MinusValueResult bt true [inst1, inst2] ⟨inst1.t, inst2.t, lowerInc, upperInc⟩
        res.toList seqs := by
  have hcount : ∀ {lowerInc' upperInc' : Bool} {seq : TSequence V B},
      tsequenceMake bt bx [inst1, inst2] lowerInc' upperInc' true false = .ok seq → ∀ t,
        timesCovered [seq] t =
          if containsPeriodTimestamp ⟨inst1.t, inst2.t, lowerInc', upperInc'⟩ t then 1 else 0 := by
    intro _ _ seq h t
    simp [(tsequenceMake_period h).1]
  obtain ⟨whole, hwhole⟩ := tsequenceMake_pair_ok bt bx true lowerInc upperInc h12 (by simp)
  by_cases hc : inst1.value = inst2.value
  · by_cases hv : inst1.value = value
    · simp only [tsequenceAtValue1] at hat
      rw [if_pos hc, if_neg (not_not.mpr hv), hwhole] at hat
      obtain rfl := Except.ok.inj hat
      refine ⟨[], by simp only [tlinearseqMinusValue1]; rw [if_pos hc, if_pos hv]; rfl,
        by simp, fun t => by simp [hcount hwhole t]⟩
    · simp only [tsequenceAtValue1] at hat
      rw [if_pos hc, if_pos hv] at hat
      obtain rfl := Except.ok.inj hat
      refine ⟨[whole], by simp only [tlinearseqMinusValue1]; rw [if_pos hc, if_neg hv, hwhole]; rfl,
        piecesOf_pair_whole hwhole, fun t => by simp [hcount hwhole t]⟩
  by_cases hv1 : inst1.value = value
  · subst hv1
    obtain ⟨seq, hseq⟩ := tsequenceMake_pair_ok bt bx true false upperInc h12 (by simp)
    refine ⟨[seq], by simp only [tlinearseqMinusValue1]; rw [if_neg hc, if_true, hseq]; rfl,
      piecesOf_pair_bounds h12 hseq (by simp) id, fun t => ?_⟩
    rw [hcount hseq, @containsPeriodTimestamp_split_lower inst1.t inst2.t lowerInc upperInc h12 t]
    cases lowerInc
    · simp only [tsequenceAtValue1, if_neg hc, Bool.not_true, if_true, Bool.not_false] at hat
      obtain rfl := Except.ok.inj hat
      simp
    · obtain ⟨seq1, hseq1⟩ := tsequenceMake_single_ok bt bx true inst1
      simp only [tsequenceAtValue1, if_neg hc, Bool.not_true, if_true, hseq1] at hat
      obtain rfl := Except.ok.inj hat
      simp [(tsequenceMake_period hseq1).1, add_comm]
  by_cases hv2 : inst2.value = value
  · subst hv2
    obtain ⟨seq, hseq⟩ := tsequenceMake_pair_ok bt bx true lowerInc false h12 (by simp)
    refine ⟨[seq], by simp only [tlinearseqMinusValue1]; rw [if_neg hc, if_neg hv1, if_true, hseq]; rfl,
      piecesOf_pair_bounds h12 hseq id (by simp), fun t => ?_⟩
    rw [hcount hseq, @containsPeriodTimestamp_split_upper inst1.t inst2.t lowerInc upperInc h12 t]
    cases upperInc
    · simp only [tsequenceAtValue1, if_neg hc, if_neg hv1, Bool.not_true, if_true,
        Bool.not_false] at hat
      obtain rfl := Except.ok.inj hat
      simp
    · obtain ⟨seq2, hseq2⟩ := tsequenceMake_single_ok bt bx true inst2
      simp only [tsequenceAtValue1, if_neg hc, if_neg hv1, Bool.not_true, if_true, hseq2] at hat
      obtain rfl := Except.ok.inj hat
      simp [(tsequenceMake_period hseq2).1, add_comm]
  cases hr : tlinearseqIntersectionValue bt inst1 inst2 value with
  | none =>
    simp only [tsequenceAtValue1, if_neg hc, if_neg hv1, if_neg hv2, Bool.not_true, hr] at hat
    obtain rfl := Except.ok.inj hat
    exact ⟨[whole], by simp [tlinearseqMinusValue1, hc, hv1, hv2, hr, hwhole],
      piecesOf_pair_whole hwhole, fun t => by simp [hcount hwhole t]⟩
  | some r =>
    obtain ⟨projvalue, t⟩ := r
    obtain ⟨ht1, ht2⟩ : inst1.t < t ∧ t < inst2.t := hcross _ hr
    have hs : [inst1, inst2].Pairwise fun (inst1 inst2 : TInstant V) => inst1.t < inst2.t := by
      simpa using h12
    have hvt : instantsValueAt bt true [inst1, inst2] t = some projvalue := by
      have hpt : containsPeriodTimestamp ⟨inst1.t, inst2.t, lowerInc, upperInc⟩ t = true :=
        containsPeriodTimestamp_mk.mpr ⟨Or.inl ht1, Or.inl ht2⟩
      rw [instantsValueAt_pair h12 hpt]
      exact congrArg some (tlinearseqIntersectionValue_value hr).symm
    obtain ⟨seq0, hseq0⟩ := tsequenceMake_single_ok bt bx true ⟨projvalue, t⟩
    simp only [tsequenceAtValue1, if_neg hc, if_neg hv1, if_neg hv2, Bool.not_true, hr,
      hseq0] at hat
    obtain rfl := Except.ok.inj hat
    obtain ⟨seq1, hseq1⟩ := tsequenceMake_pair_ok bt bx true lowerInc false
      (show inst1.t < (⟨projvalue, t⟩ : TInstant V).t from ht1) (by simp)
    obtain ⟨seq2, hseq2⟩ := tsequenceMake_pair_ok bt bx true false upperInc
      (show (⟨projvalue, t⟩ : TInstant V).t < inst2.t from ht2) (by simp)
    refine ⟨[seq1, seq2], by simp [tlinearseqMinusValue1, hc, hv1, hv2, hr, hseq1, hseq2]; rfl,
      ⟨?_, fun t' => ?_⟩⟩
    · rw [show [seq1, seq2] = [seq1] ++ [seq2] from rfl, piecesOf_append]
      constructor
      · refine piecesOf_tsequenceMake hseq1 fun t' ht' => ⟨containsPeriodTimestamp_of_upper_lt ht' ht2, ?_⟩
        have hlt : t' < t := by
          have := containsPeriodTimestamp_mk.mp ht'
          simp only [Bool.false_eq_true, false_and, or_false] at this
          exact this.2
        have key := instantsValueAt_cutBack (fun _ => hbt) hs hvt (fun _ => rfl) hlt
        simpa [List.filter, ht1, not_lt.mpr ht2.le] using key
      · refine piecesOf_tsequenceMake hseq2 fun t' ht' => ⟨containsPeriodTimestamp_of_lt_lower ht' ht1, ?_⟩
        have hle : t ≤ t' := (bounds_of_containsPeriodTimestamp ht').1
        have key := instantsValueAt_cutFront (fun _ => hbt) hs hvt hle
        simpa [List.filter, not_lt.mpr ht1.le, ht2] using key
    · simp only [timesCovered_cons, timesCovered_nil, Option.toList_some,
        (tsequenceMake_period hseq0).1, (tsequenceMake_period hseq1).1,
        (tsequenceMake_period hseq2).1, periodOf_singleton, periodOf_pair,
        containsPeriodTimestamp_instant]
      rw [@containsPeriodTimestamp_split inst1.t inst2.t t lowerInc upperInc false ht1 ht2 t',
        Bool.not_false, @containsPeriodTimestamp_split_lower t inst2.t true upperInc ht2 t']
      simp only [true_and, decide_eq_true_eq]
      omega

end Segment

end TemporalSequence
