import TemporalSequence.Restrict
import TemporalSequence.Proofs.NormalizeArray
import TemporalSequence.Proofs.Restriction
import TemporalSequence.Proofs.RestrictValue

/-!
# Restrictions returning sequence sets

`tsequence_restrict_periodset` returns, in each of its branches, the restriction of
the sequence to the period set, normalized, and to its complement where no period of the
set splits the sequence; where one does, the `minus` side reads freed memory in
`tsequence_minus_period1`.
`tsequence_restrict_value` returns on its two sides normalized sequences that split
the sequence; with step interpolation the `at` side is exactly where the sequence takes
the value. Both rest on the specifications of the functions they call and on the
normalization of arrays of sequences.
-/

namespace TemporalSequence

variable {V B : Type} [DecidableEq V] {bt : BaseType V} (bx : BBoxOps V B) {seq : TSequence V B}

/-! ## Restriction to a period set -/

lemma sequencesValueAt_whole {ps : List Period} {c atfunc : Bool} (hwf : seq.WellFormed)
    (hc : ∀ t, containsPeriodTimestamp seq.period t = true → containsPeriodsetTimestamp ps t = c) :
    (∀ r ∈ (if c = atfunc then [seq] else []), r.WellFormed ∧ r.linear = seq.linear) ∧
      TimeOrdered (if c = atfunc then [seq] else []) ∧
      ∀ t, sequencesValueAt bt (if c = atfunc then [seq] else []) t =
        if containsPeriodsetTimestamp ps t = atfunc then seq.valueAt bt t else none := by
  refine ⟨by split_ifs <;> simp [hwf], by split_ifs <;> simp [TimeOrdered], fun t => ?_⟩
  by_cases ht : containsPeriodTimestamp seq.period t = true
  · rw [hc t ht]
    split_ifs <;> simp
  · have h0 : seq.valueAt bt t = none := TSequence.valueAt_of_not_contains (Bool.eq_false_iff.mpr ht)
    split_ifs <;> simp [h0]

/-- `tsequence_restrict_periodset` succeeds, on a well-formed sequence and a set of valid
periods in time order, with well-formed sequences in time order that denote the sequence
restricted to the set (`atfunc`) or, when no period splits the sequence, to its
complement. -/
lemma tsequenceRestrictPeriodset_denotes (hbt : seq.linear = true → LawfulBaseType bt)
    (hwf : seq.WellFormed) {ps : List Period} (hne : ps ≠ []) (hv : ∀ q ∈ ps, q.Valid)
    (hps : ps.Pairwise Period.Precedes) (atfunc : Bool)
    (hcol : atfunc = true → bt.CollinearSound seq.linear)
    (hsplit : atfunc = false → ∀ q ∈ ps, ¬seq.SplitBy q) :
    ∃ rs, tsequenceRestrictPeriodset bt bx seq ps atfunc = .ok rs ∧
      (∀ r ∈ rs, r.WellFormed ∧ r.linear = seq.linear) ∧ TimeOrdered rs ∧
      ∀ t, sequencesValueAt bt rs t =
        if containsPeriodsetTimestamp ps t = atfunc then seq.valueAt bt t else none := by
  by_cases ho : overlapsPeriodPeriod seq.period (periodsetBbox ps) = true
  swap
  · have hc : ∀ t, containsPeriodTimestamp seq.period t = true →
        containsPeriodsetTimestamp ps t = false := fun t ht => by
      by_contra hpt
      obtain ⟨q, hq, hqt⟩ : ∃ q ∈ ps, containsPeriodTimestamp q t = true := by
        simpa [containsPeriodsetTimestamp] using hpt
      exact ho (overlapsPeriodPeriod_of_contains ht
        (containsPeriodTimestamp_periodsetBbox hv hps hq hqt))
    refine ⟨_, ?_, sequencesValueAt_whole hwf hc⟩
    cases atfunc <;> simp [tsequenceRestrictPeriodset, ho, pure, Except.pure]
  match hi : seq.instants with
  | [] => exact absurd hi hwf.nonempty
  | [inst] =>
    obtain ⟨inst', hi', hper⟩ := hwf.period_of_length_one (by simp [hi])
    obtain rfl : inst' = inst := by simpa [hi] using hi'.symm
    have hc : ∀ t, containsPeriodTimestamp seq.period t = true →
        containsPeriodsetTimestamp ps t = containsPeriodsetTimestamp ps inst'.t := fun t ht => by
      rw [hper] at ht
      have hb := bounds_of_containsPeriodTimestamp ht
      rw [show t = inst'.t from le_antisymm hb.2 hb.1]
    refine ⟨_, ?_, sequencesValueAt_whole hwf hc⟩
    simp only [tsequenceRestrictPeriodset, ho, Bool.not_true, Bool.false_eq_true, if_false, hi]
    cases containsPeriodsetTimestamp ps inst'.t <;> cases atfunc <;> rfl
  | _ :: _ :: _ =>
    cases atfunc
    · obtain ⟨rs, hres, hshape, hval⟩ := @tsequenceMinusPeriodset_of_not_split _ _ _ bt bx _ hwf
        _ hv hps 0 (List.length_pos.mpr hne) (by simp) (by simpa using hsplit rfl)
      refine ⟨rs, by simp [tsequenceRestrictPeriodset, ho, hi, hres, tsequencesetMake, bind,
        Except.bind, pure, Except.pure], by rcases hshape with rfl | rfl <;> simp [hwf],
        by rcases hshape with rfl | rfl <;> simp [TimeOrdered], fun t => ?_⟩
      rw [hval t]
      cases containsPeriodsetTimestamp ps t <;> rfl
    · obtain ⟨rs, hres, hrs, hord, hval⟩ := tsequenceAtPeriodset_spec bx hbt hwf hv hps
      obtain ⟨hw, -, hv'⟩ := tsequencearrNormalize_denotes bx (hcol rfl) hbt hrs
      refine ⟨_, by simp [tsequenceRestrictPeriodset, ho, hi, hres, tsequencesetMake, bind,
        Except.bind, pure, Except.pure], hw,
        tsequencearrNormalize_ordered bx (hcol rfl) hbt hrs hord, fun t => ?_⟩
      rw [hv' t, hval t]

/-- On a well-formed sequence and a set of valid periods in time order,
`tsequence_restrict_periodset` succeeds with the restriction of the sequence to the set,
normalized, when the collinearity test is sound, and with the restriction to its
complement when no period of the set splits the sequence: when the sequence misses the
box of the set, when it is instantaneous, and in the general case. When a period splits
the sequence, the `minus` side reads freed memory in `tsequence_minus_period1`. -/
theorem tsequenceRestrictPeriodset_spec (hbt : seq.linear = true → LawfulBaseType bt)
    (hwf : seq.WellFormed) {ps : List Period} (hne : ps ≠ []) (hv : ∀ q ∈ ps, q.Valid)
    (hps : ps.Pairwise Period.Precedes) :
    (bt.CollinearSound seq.linear → ∃ rs, tsequenceRestrictPeriodset bt bx seq ps true = .ok rs ∧
      RestrictionOf bt seq (fun t => containsPeriodsetTimestamp ps t = true) rs) ∧
    ((∀ q ∈ ps, ¬seq.SplitBy q) → ∃ rs, tsequenceRestrictPeriodset bt bx seq ps false = .ok rs ∧
      RestrictionOf bt seq (fun t => containsPeriodsetTimestamp ps t = false) rs) ∧
    ((∃ q ∈ ps, seq.SplitBy q) →
      tsequenceRestrictPeriodset bt bx seq ps false = .error "ps->count is read after pfree(ps)") := by
  refine ⟨fun hcol => ?_, fun hsplit => ?_, fun ⟨q, hq, hqs⟩ => ?_⟩
  · obtain ⟨rs, hres, hrs, hord, hval⟩ :=
      tsequenceRestrictPeriodset_denotes bx hbt hwf hne hv hps true (fun _ => hcol) nofun
    exact ⟨rs, hres, restrictionOf_of_sequencesValueAt hrs hord hval hwf⟩
  · obtain ⟨rs, hres, hrs, hord, hval⟩ :=
      tsequenceRestrictPeriodset_denotes bx hbt hwf hne hv hps false nofun fun _ => hsplit
    exact ⟨rs, hres, restrictionOf_of_sequencesValueAt hrs hord hval hwf⟩
  · have hw := periodsetBbox_within hv hps hq
    have ho := overlapsPeriodPeriod_of_within hqs.1 hw.1 hw.2
    have hfreed := tsequenceMinusPeriodset_freed bx hbt hwf hv hps 0
      ⟨q, by simpa using hq, hqs⟩
    obtain ⟨-, hlen, -⟩ := hqs
    rcases hi : seq.instants with _ | ⟨a, _ | ⟨b, rest⟩⟩
    · simp [hi] at hlen
    · simp [hi] at hlen
    · simp [tsequenceRestrictPeriodset, ho, hi, hfreed, bind, Except.bind]

/-- The linear float sequence `[0@0, 4@4]` restricted to the periods `[0, 1)` and
`[1, 3]`, whose two pieces the normalization joins; the period `[1, 3]` splits the
sequence, so its `minus` side reads freed memory. -/
theorem tsequenceRestrictPeriodset_spec_line :
    (⟨[⟨0, 0⟩, ⟨4, 4⟩], ⟨0, 4, true, true⟩, true, ⟨0, 4, 0, 4⟩⟩ : TSequence ℚ TBox).WellFormed ∧
    (∀ q ∈ [(⟨0, 1, true, false⟩ : Period), ⟨1, 3, true, true⟩], q.Valid) ∧
    [(⟨0, 1, true, false⟩ : Period), ⟨1, 3, true, true⟩].Pairwise Period.Precedes ∧
    (∃ rs, tsequenceRestrictPeriodset (tfloat 0) (tnumberBBox id)
        ⟨[⟨0, 0⟩, ⟨4, 4⟩], ⟨0, 4, true, true⟩, true, ⟨0, 4, 0, 4⟩⟩
        [⟨0, 1, true, false⟩, ⟨1, 3, true, true⟩] true = .ok rs ∧
      RestrictionOf (tfloat 0) ⟨[⟨0, 0⟩, ⟨4, 4⟩], ⟨0, 4, true, true⟩, true, ⟨0, 4, 0, 4⟩⟩
        (fun t => containsPeriodsetTimestamp [⟨0, 1, true, false⟩, ⟨1, 3, true, true⟩] t = true)
        rs) ∧
    tsequenceRestrictPeriodset (tfloat 0) (tnumberBBox id)
        ⟨[⟨0, 0⟩, ⟨4, 4⟩], ⟨0, 4, true, true⟩, true, ⟨0, 4, 0, 4⟩⟩
        [⟨0, 1, true, false⟩, ⟨1, 3, true, true⟩] false =
      .error "ps->count is read after pfree(ps)" := by
  have hwf : (⟨[⟨0, 0⟩, ⟨4, 4⟩], ⟨0, 4, true, true⟩, true, ⟨0, 4, 0, 4⟩⟩ :
      TSequence ℚ TBox).WellFormed := ⟨by simp, by simp, rfl, by simp, by simp⟩
  have hv : ∀ q ∈ [(⟨0, 1, true, false⟩ : Period), ⟨1, 3, true, true⟩], q.Valid := by decide
  have hps : [(⟨0, 1, true, false⟩ : Period), ⟨1, 3, true, true⟩].Pairwise Period.Precedes :=
    List.pairwise_pair.mpr (.inr ⟨rfl, by simp⟩)
  have h := tsequenceRestrictPeriodset_spec (tnumberBBox id) (fun _ => tfloat_lawful 0) hwf
    (by simp) hv hps
  exact ⟨hwf, hv, hps, h.1 tfloat_collinearSound, h.2.2 ⟨⟨1, 3, true, true⟩, by simp, by decide⟩⟩

/-! ## Restriction to a value -/

lemma sequencesValueAt_of_piecesOf {rs : List (TSequence V B)}
    (hP : PiecesOf bt seq.linear seq.instants seq.period rs) (t : ℤ) :
    sequencesValueAt bt rs t = if 0 < timesCovered rs t then seq.valueAt bt t else none := by
  induction rs with
  | nil => simp
  | cons r rs ih =>
    obtain ⟨hwf, -, hagree⟩ := hP r (List.mem_cons_self _ _)
    rw [sequencesValueAt_cons, ih fun r' hr' => hP r' (List.mem_cons_of_mem _ hr'), timesCovered_cons]
    by_cases hc : containsPeriodTimestamp r.period t = true
    · obtain ⟨hs, hv⟩ := hagree t hc
      have hsome : (r.valueAt bt t).isSome := (TSequence.valueAt_isSome hwf t).trans hc
      rw [Option.or_of_isSome hsome, hv, if_pos (by simp [hc]), TSequence.valueAt, if_pos hs]
    · rw [TSequence.valueAt_of_not_contains (Bool.eq_false_iff.mpr hc), Option.none_or]
      simp [hc]

/-- On a valid sequence with a sound box, provided each crossing of a linear segment
with `value` lies strictly inside the segment, and the collinearity test of the base type
is sound for the interpolation of the sequence, both sides of `tsequence_restrict_value`
succeed with normalized well-formed sequences that split the sequence: at each timestamp
one side has the value of the sequence and the other none. With step interpolation the
`at` side is exactly where the sequence takes the value. -/
theorem tsequenceRestrictValue_spec (value : V) (hbt : seq.linear = true → LawfulBaseType bt)
    (hcol : bt.CollinearSound seq.linear) (hbx : bx.RestrictValueSound) (hv : seq.Valid bt bx)
    (hcross : seq.linear = true → seq.instants.Chain' fun a b =>
      ∀ r ∈ tlinearseqIntersectionValue bt a b value, a.t < r.2 ∧ r.2 < b.t) :
    ∃ ats mins, tsequenceRestrictValue bt bx seq value true = .ok ats ∧
      tsequenceRestrictValue bt bx seq value false = .ok mins ∧
      (∀ r ∈ ats ++ mins, r.WellFormed ∧ r.linear = seq.linear) ∧
      (∀ t, (sequencesValueAt bt ats t).or (sequencesValueAt bt mins t) = seq.valueAt bt t ∧
        (sequencesValueAt bt ats t = none ∨ sequencesValueAt bt mins t = none)) ∧
      (seq.linear = false → ∀ t, sequencesValueAt bt ats t =
        if seq.valueAt bt t = some value then some value else none) := by
  obtain ⟨ats, mins, hat, hmin, hA, hM⟩ :=
    tsequenceValue_results hv.wellFormed hbt hbx hv.bbox hcross
  have hwA : ∀ r ∈ ats, r.WellFormed ∧ r.linear = seq.linear := fun r hr =>
    ⟨(hA.pieces r hr).1, (hA.pieces r hr).2.1⟩
  have hwM : ∀ r ∈ mins, r.WellFormed ∧ r.linear = seq.linear := fun r hr =>
    ⟨(hM.pieces r hr).1, (hM.pieces r hr).2.1⟩
  obtain ⟨hwA', -, hvA⟩ := tsequencearrNormalize_denotes bx hcol hbt hwA
  obtain ⟨hwM', -, hvM⟩ := tsequencearrNormalize_denotes bx hcol hbt hwM
  refine ⟨_, _, by simp [tsequenceRestrictValue, hat, tsequencesetMake, bind, Except.bind, pure,
      Except.pure], by simp [tsequenceRestrictValue, hmin, tsequencesetMake, bind, Except.bind, pure,
      Except.pure], List.forall_mem_append.mpr ⟨hwA', hwM'⟩, fun t => ?_, fun hlin t => ?_⟩
  · have hpart := hM.partition t
    rw [hvA, hvM, sequencesValueAt_of_piecesOf hA.pieces, sequencesValueAt_of_piecesOf hM.pieces]
    by_cases hc : containsPeriodTimestamp seq.period t = true
    · rw [if_pos hc] at hpart
      rcases Nat.eq_zero_or_pos (timesCovered ats t) with h0 | h0
      · rw [if_neg (by omega), if_pos (by omega)]
        exact ⟨Option.none_or, .inl rfl⟩
      · rw [if_pos h0, if_neg (by omega)]
        exact ⟨Option.or_none, .inr rfl⟩
    · rw [TSequence.valueAt_of_not_contains (Bool.eq_false_iff.mpr hc)]
      split_ifs <;> simp
  · rw [hvA, sequencesValueAt_of_piecesOf hA.pieces, hA.step hlin t, TSequence.valueAt, hlin]
    by_cases hc : containsPeriodTimestamp seq.period t = true
    · by_cases hval : instantsValueAt bt false seq.instants t = some value <;> simp [hc, hval]
    · simp [hc]

/-- The step integer sequence `[1@0, 2@2]` is valid, so its restrictions to the value 1
split it. -/
theorem tsequenceRestrictValue_spec_step :
    (⟨[⟨1, 0⟩, ⟨2, 2⟩], ⟨0, 2, true, true⟩, false, ⟨1, 2, 0, 2⟩⟩ : TSequence ℤ TBox).Valid
      stepOnly (tnumberBBox (Int.cast : ℤ → ℚ)) ∧
    ∃ ats mins, tsequenceRestrictValue stepOnly (tnumberBBox (Int.cast : ℤ → ℚ))
        ⟨[⟨1, 0⟩, ⟨2, 2⟩], ⟨0, 2, true, true⟩, false, ⟨1, 2, 0, 2⟩⟩ 1 true = .ok ats ∧
      tsequenceRestrictValue stepOnly (tnumberBBox (Int.cast : ℤ → ℚ))
        ⟨[⟨1, 0⟩, ⟨2, 2⟩], ⟨0, 2, true, true⟩, false, ⟨1, 2, 0, 2⟩⟩ 1 false = .ok mins ∧
      (∀ r ∈ ats ++ mins, r.WellFormed ∧ r.linear = false) ∧
      (∀ t, (sequencesValueAt stepOnly ats t).or (sequencesValueAt stepOnly mins t) =
          (⟨[⟨1, 0⟩, ⟨2, 2⟩], ⟨0, 2, true, true⟩, false, ⟨1, 2, 0, 2⟩⟩ : TSequence ℤ TBox).valueAt
            stepOnly t ∧
        (sequencesValueAt stepOnly ats t = none ∨ sequencesValueAt stepOnly mins t = none)) ∧
      (false = false → ∀ t, sequencesValueAt stepOnly ats t =
        if (⟨[⟨1, 0⟩, ⟨2, 2⟩], ⟨0, 2, true, true⟩, false, ⟨1, 2, 0, 2⟩⟩ : TSequence ℤ TBox).valueAt
          stepOnly t = some 1 then some 1 else none) := by
  have hv : (⟨[⟨1, 0⟩, ⟨2, 2⟩], ⟨0, 2, true, true⟩, false, ⟨1, 2, 0, 2⟩⟩ :
      TSequence ℤ TBox).Valid stepOnly (tnumberBBox (Int.cast : ℤ → ℚ)) := by
    simp [TSequence.valid_iff, lastTwo?, periodOf, lastT, tinstantarrNormalize,
      tinstantarrNormalizeLoop, tnumberBBox, tboxExpand]
  exact ⟨hv, tsequenceRestrictValue_spec (tnumberBBox (Int.cast : ℤ → ℚ)) 1 (fun h => by cases h)
    (stepOnly_collinearSound false) (tnumberBBox_restrictValueSound _) hv (fun h => by cases h)⟩

end TemporalSequence
