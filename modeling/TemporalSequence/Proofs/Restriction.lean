import TemporalSequence.Proofs.RestrictTime

/-!
# Restrictions of a sequence to a set of timestamps

A restriction of a sequence to a set `S` of timestamps is a list of sequences in time
order, so pairwise disjoint, whose periods together cover exactly the timestamps of
the period of the sequence in `S`, and each of which takes the value of the sequence
at every timestamp of its period. The restriction functions of `tsequence.c` are
shown to return restrictions, to a timestamp, a period, a period set or their
complements, from the value each of them denotes.
-/

namespace TemporalSequence

variable {V B : Type} [DecidableEq V]

/-- The sequences `rs` are the sequence `seq` restricted to the timestamps of `S`. -/
structure RestrictionOf (bt : BaseType V) (seq : TSequence V B) (S : ℤ → Prop)
    (rs : List (TSequence V B)) : Prop where
  wellFormed : ∀ r ∈ rs, r.WellFormed ∧ r.linear = seq.linear
  ordered : TimeOrdered rs
  spans : ∀ t, (∃ r ∈ rs, containsPeriodTimestamp r.period t = true) ↔
    containsPeriodTimestamp seq.period t = true ∧ S t
  agrees : ∀ r ∈ rs, ∀ t, containsPeriodTimestamp r.period t = true →
    r.valueAt bt t = seq.valueAt bt t

variable {bt : BaseType V} {bx : BBoxOps V B} {seq : TSequence V B}

lemma sequencesValueAt_of_mem {rs : List (TSequence V B)} (hwf : ∀ r ∈ rs, r.WellFormed)
    (hord : TimeOrdered rs) {r : TSequence V B} (hr : r ∈ rs) {t : ℤ}
    (ht : containsPeriodTimestamp r.period t = true) :
    sequencesValueAt bt rs t = r.valueAt bt t := by
  induction rs with
  | nil => cases hr
  | cons r0 rs ih =>
    rw [sequencesValueAt_cons]
    rcases List.mem_cons.mp hr with rfl | hr
    · exact Option.or_of_isSome ((TSequence.valueAt_isSome (hwf _ (List.mem_cons_self _ _)) t).trans ht)
    · have h0 : r0.valueAt bt t = none := TSequence.valueAt_of_not_contains (by
        cases h0 : containsPeriodTimestamp r0.period t
        · rfl
        · exact absurd (List.rel_of_pairwise_cons hord hr t t h0 ht) (lt_irrefl t))
      rw [h0, Option.none_or]
      exact ih (fun r' hr' => hwf r' (List.mem_cons_of_mem _ hr')) (List.Pairwise.of_cons hord) hr

section Denotes

variable {S : ℤ → Prop} [DecidablePred S] {rs : List (TSequence V B)}
  (hrs : ∀ r ∈ rs, r.WellFormed ∧ r.linear = seq.linear) (hord : TimeOrdered rs)
  (hval : ∀ t, sequencesValueAt bt rs t = if S t then seq.valueAt bt t else none)
include hrs hord hval

private lemma valueAt_of_mem_of_denotes {r : TSequence V B} (hr : r ∈ rs) {t : ℤ}
    (ht : containsPeriodTimestamp r.period t = true) :
    S t ∧ r.valueAt bt t = seq.valueAt bt t := by
  have hsome : (r.valueAt bt t).isSome := (TSequence.valueAt_isSome (hrs r hr).1 t).trans ht
  have heq : r.valueAt bt t = if S t then seq.valueAt bt t else none := by
    rw [← sequencesValueAt_of_mem (fun r hr => (hrs r hr).1) hord hr ht, hval]
  by_cases hS : S t
  · exact ⟨hS, by rw [heq, if_pos hS]⟩
  · rw [heq, if_neg hS] at hsome
    cases hsome

theorem restrictionOf_of_sequencesValueAt (hwf : seq.WellFormed) : RestrictionOf bt seq S rs := by
  refine ⟨hrs, hord, fun t => ⟨?_, ?_⟩, fun r hr t ht => (valueAt_of_mem_of_denotes hrs hord hval hr ht).2⟩
  · rintro ⟨r, hr, ht⟩
    obtain ⟨hS, heq⟩ := valueAt_of_mem_of_denotes hrs hord hval hr ht
    have hseq : (seq.valueAt bt t).isSome = containsPeriodTimestamp seq.period t :=
      TSequence.valueAt_isSome hwf t
    rw [← hseq, ← heq, TSequence.valueAt_isSome (hrs r hr).1 t, ht]
    exact ⟨rfl, hS⟩
  · rintro ⟨hc, hS⟩
    have hsome : (sequencesValueAt bt rs t).isSome := by
      rw [hval, if_pos hS, TSequence.valueAt_isSome hwf t, hc]
    obtain ⟨r, hr, hrt⟩ := List.findSome?_isSome_iff.mp hsome
    exact ⟨r, hr, (TSequence.valueAt_isSome (hrs r hr).1 t).symm.trans hrt⟩

end Denotes

lemma restrictionOf_of_nil_or_self {f : ℤ → Bool} (hwf : seq.WellFormed)
    {rs : List (TSequence V B)} (hrs : rs = [] ∨ rs = [seq])
    (hval : ∀ t, sequencesValueAt bt rs t = if f t then none else seq.valueAt bt t) :
    RestrictionOf bt seq (fun t => f t = false) rs := by
  refine restrictionOf_of_sequencesValueAt ?_ ?_ (fun t => ?_) hwf
  · rcases hrs with rfl | rfl <;> simp [hwf]
  · rcases hrs with rfl | rfl <;> simp [TimeOrdered]
  · rw [hval]
    cases f t <;> rfl

/-- On a valid sequence, `tsequence_at_timestamp` gives the instant of the sequence at
the timestamp when it is in its period; `tsequence_at_period`,
`tsequence_at_periodset` and `tsequence_minus_timestamp1` succeed on a valid timestamp,
period or set of periods in time order, and return the restriction of the sequence to
it or to its complement. `tsequence_minus_period1` and `tsequence_minus_periodset`
return the restriction to the complement where no period splits the sequence, and read
freed memory where one does. -/
theorem tsequence_restrictions_correct_or_freed (hbt : seq.linear = true → LawfulBaseType bt)
    (hv : seq.Valid bt bx) :
    (∀ t, tsequenceAtTimestamp bt seq t = (seq.valueAt bt t).map fun value => ⟨value, t⟩) ∧
    (∀ p : Period, p.Valid → ∃ res, tsequenceAtPeriod bt bx seq p = .ok res ∧
      RestrictionOf bt seq (fun t => containsPeriodTimestamp p t = true) res.toList) ∧
    (∀ ps : List Period, (∀ q ∈ ps, q.Valid) → ps.Pairwise Period.Precedes →
      ∃ rs, tsequenceAtPeriodset bt bx seq ps = .ok rs ∧
        RestrictionOf bt seq (fun t => containsPeriodsetTimestamp ps t = true) rs) ∧
    (∀ t, ∃ rs, tsequenceMinusTimestamp1 bt bx seq t = .ok rs ∧
      RestrictionOf bt seq (fun t' => t' ≠ t) rs) ∧
    (∀ p : Period, ¬seq.SplitBy p → ∃ rs, tsequenceMinusPeriod1 bt bx seq p = .ok rs ∧
      RestrictionOf bt seq (fun t => containsPeriodTimestamp p t = false) rs) ∧
    (∀ ps : List Period, (∀ q ∈ ps, q.Valid) → ps.Pairwise Period.Precedes →
      ∀ «from» < ps.length, (∀ q ∈ ps.take «from», ∀ t, containsPeriodTimestamp q t = true →
        containsPeriodTimestamp seq.period t = false) → (∀ q ∈ ps.drop «from», ¬seq.SplitBy q) →
      ∃ rs, tsequenceMinusPeriodset bt bx seq ps «from» = .ok rs ∧
        RestrictionOf bt seq (fun t => containsPeriodsetTimestamp ps t = false) rs) ∧
    (∀ p : Period, seq.SplitBy p →
      tsequenceMinusPeriod1 bt bx seq p = .error "ps->count is read after pfree(ps)") ∧
    (∀ ps : List Period, (∀ q ∈ ps, q.Valid) → ps.Pairwise Period.Precedes → ∀ «from» : ℕ,
      (∃ q ∈ ps.drop «from», seq.SplitBy q) →
      tsequenceMinusPeriodset bt bx seq ps «from» = .error "ps->count is read after pfree(ps)") := by
  have hwf := hv.wellFormed
  refine ⟨tsequenceAtTimestamp_eq_valueAt bt hwf, fun p hp => ?_, fun ps hvs hps => ?_,
    fun t => ?_, fun p hp => ?_, fun ps hvs hps «from» hfrom hskip hsplit => ?_,
    fun p hp => tsequenceMinusPeriod1_freed bx hbt hwf hp,
    fun ps hvs hps f hsplit => tsequenceMinusPeriodset_freed bx hbt hwf hvs hps f hsplit⟩
  · obtain ⟨res, hres, -, hrs, hval⟩ := tsequenceAtPeriod_valueAt bt bx hbt hwf hp
    refine ⟨res, hres, restrictionOf_of_sequencesValueAt (by simpa using hrs)
      (by cases res <;> simp [TimeOrdered]) (fun t => ?_) hwf⟩
    rw [← hval t]
    cases res <;> simp
  · obtain ⟨rs, hres, hrs, hord, hval⟩ := tsequenceAtPeriodset_spec bx hbt hwf hvs hps
    exact ⟨rs, hres, restrictionOf_of_sequencesValueAt hrs hord hval hwf⟩
  · obtain ⟨rs, hres, hrs, hord, hval⟩ := tsequenceMinusTimestamp1_spec bx hbt hwf t
    exact ⟨rs, hres, restrictionOf_of_sequencesValueAt hrs hord
      (fun t' => (hval t').trans (ite_not _ _ _).symm) hwf⟩
  · obtain ⟨rs, hres, hshape, hval⟩ := tsequenceMinusPeriod1_of_not_split bx hwf hp
    exact ⟨rs, hres, restrictionOf_of_nil_or_self hwf hshape hval⟩
  · obtain ⟨rs, hres, hshape, hval⟩ :=
      tsequenceMinusPeriodset_of_not_split bx hwf hvs hps hfrom hskip hsplit
    exact ⟨rs, hres, restrictionOf_of_nil_or_self hwf hshape hval⟩

/-- The linear float sequence `[0@0, 2@2]` is valid and the instantaneous period `[1, 1]`
splits it, so `tsequence_minus_period1` and `tsequence_minus_periodset` read freed
memory on it. -/
theorem tsequence_restrictions_correct_or_freed_split :
    (⟨[⟨0, 0⟩, ⟨2, 2⟩], ⟨0, 2, true, true⟩, true, ⟨0, 2, 0, 2⟩⟩ : TSequence ℚ TBox).Valid
      (tfloat 0) (tnumberBBox id) ∧
    (⟨[⟨0, 0⟩, ⟨2, 2⟩], ⟨0, 2, true, true⟩, true, ⟨0, 2, 0, 2⟩⟩ : TSequence ℚ TBox).SplitBy
      ⟨1, 1, true, true⟩ ∧
    tsequenceMinusPeriod1 (tfloat 0) (tnumberBBox id)
        (⟨[⟨0, 0⟩, ⟨2, 2⟩], ⟨0, 2, true, true⟩, true, ⟨0, 2, 0, 2⟩⟩ : TSequence ℚ TBox)
        ⟨1, 1, true, true⟩ = .error "ps->count is read after pfree(ps)" ∧
    tsequenceMinusPeriodset (tfloat 0) (tnumberBBox id)
        (⟨[⟨0, 0⟩, ⟨2, 2⟩], ⟨0, 2, true, true⟩, true, ⟨0, 2, 0, 2⟩⟩ : TSequence ℚ TBox)
        [⟨1, 1, true, true⟩] 0 = .error "ps->count is read after pfree(ps)" := by
  have hv : (⟨[⟨0, 0⟩, ⟨2, 2⟩], ⟨0, 2, true, true⟩, true, ⟨0, 2, 0, 2⟩⟩ :
      TSequence ℚ TBox).Valid (tfloat 0) (tnumberBBox id) := by
    simp [TSequence.valid_iff, lastTwo?, periodOf, lastT, tinstantarrNormalize,
      tinstantarrNormalizeLoop, normalizeRedundant, tnumberBBox, tboxExpand]
  have hs : (⟨[⟨0, 0⟩, ⟨2, 2⟩], ⟨0, 2, true, true⟩, true, ⟨0, 2, 0, 2⟩⟩ :
      TSequence ℚ TBox).SplitBy ⟨1, 1, true, true⟩ := by decide
  have h := tsequence_restrictions_correct_or_freed (fun _ => tfloat_lawful 0) hv
  exact ⟨hv, hs, h.2.2.2.2.2.2.1 _ hs, h.2.2.2.2.2.2.2 _ (by simp [Period.Valid])
    (List.pairwise_singleton _ _) 0 ⟨_, List.mem_singleton_self _, hs⟩⟩

end TemporalSequence
