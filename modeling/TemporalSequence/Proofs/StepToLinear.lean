import TemporalSequence.Proofs.RestrictPeriodset
import TemporalSequence.Proofs.Pieces
import TemporalSequence.Proofs.Synchronize

/-!
# From step to linear interpolation

`tstepseq_to_linear1` turns a step sequence into linear sequences: the step segment
`v_i@t_i -> v_(i+1)@t_(i+1)` becomes the constant linear segment `v_i@t_i -> v_i@t_(i+1)`,
open on the right except the last one, which keeps the upper bound of the sequence
when its two values are equal; when they differ and the upper bound is inclusive, the
last instant becomes an instantaneous sequence of its own. The linear sequences are
valid, in time order, cover exactly the period of the step sequence and take its
values there.
-/

namespace TemporalSequence

variable {V B : Type} [DecidableEq V] {bt : BaseType V} {bx : BBoxOps V B}

/-- The linear sequences `seqs` are valid, in time order, cover exactly the period `p`
and take there the values of the step array `instants`. -/
structure LinearPiecesOf (bt : BaseType V) (bx : BBoxOps V B) (instants : List (TInstant V))
    (p : Period) (seqs : List (TSequence V B)) : Prop where
  valid : ∀ r ∈ seqs, r.Valid bt bx ∧ r.linear = true
  ordered : TimeOrdered seqs
  spans : ∀ t, (∃ r ∈ seqs, containsPeriodTimestamp r.period t = true) ↔
    containsPeriodTimestamp p t = true
  agrees : ∀ r ∈ seqs, ∀ t, containsPeriodTimestamp r.period t = true →
    r.valueAt bt t = instantsValueAt bt false instants t

section Segment

variable {inst1 inst2 : TInstant V}

lemma instantsValueAt_step_first {rest : List (TInstant V)} {t : ℤ} (h1 : inst1.t ≤ t)
    (h2 : t < inst2.t) : instantsValueAt bt false (inst1 :: inst2 :: rest) t = some inst1.value := by
  rw [instantsValueAt_cons_cons, if_pos h2, if_pos h1, tsequenceValueAtTimestamp1_step h2]

lemma tsequenceMake_constSegment (bt : BaseType V) (bx : BBoxOps V B) (lowerInc upperInc : Bool)
    (h12 : inst1.t < inst2.t) :
    ∃ seq, tsequenceMake bt bx [inst1, ⟨inst1.value, inst2.t⟩] lowerInc upperInc true false =
        .ok seq ∧ seq.Valid bt bx ∧ seq.linear = true ∧
      seq.period = ⟨inst1.t, inst2.t, lowerInc, upperInc⟩ ∧
      ∀ t, containsPeriodTimestamp seq.period t = true → seq.valueAt bt t = some inst1.value := by
  obtain ⟨seq, h⟩ := tsequenceMake_pair_ok bt bx true lowerInc upperInc
    (show inst1.t < (⟨inst1.value, inst2.t⟩ : TInstant V).t from h12) (by simp)
  obtain ⟨hper, hlin⟩ := tsequenceMake_period h
  refine ⟨seq, h, tsequenceMake_valid h rfl, hlin, hper, fun t ht => ?_⟩
  rw [hper] at ht
  have hb : inst1.t ≤ t ∧ t ≤ inst2.t := bounds_of_containsPeriodTimestamp ht
  rw [tsequenceMake_valueAt h, if_pos ht, instantsValueAt_cons_cons]
  rcases hb.2.lt_or_eq with h2 | rfl
  · rw [if_pos h2, if_pos hb.1]
    exact congrArg some (tsequenceValueAtTimestamp1_const rfl)
  · simp [instantsValueAt]

lemma linearPiecesOf_last (bt : BaseType V) (bx : BBoxOps V B) (lowerInc upperInc : Bool)
    (h12 : inst1.t < inst2.t) :
    ∃ seq, tsequenceMake bt bx [inst1, ⟨inst1.value, inst2.t⟩] lowerInc
        (upperInc && inst1.value == inst2.value) true false = .ok seq ∧
      LinearPiecesOf bt bx [inst1, inst2]
        (periodOf [inst1, inst2] lowerInc (upperInc && inst1.value == inst2.value)) [seq] := by
  obtain ⟨seq, h, hv, hlin, hper, hval⟩ := tsequenceMake_constSegment bt bx lowerInc
    (upperInc && inst1.value == inst2.value) h12
  refine ⟨seq, h, ⟨by simp [hv, hlin], List.pairwise_singleton _ _, fun t => by simp [hper],
    fun r hr t ht => ?_⟩⟩
  obtain rfl := List.mem_singleton.mp hr
  rw [hval t ht]
  rw [hper, containsPeriodTimestamp_mk] at ht
  rcases ht with ⟨h1, h2 | ⟨hui, rfl⟩⟩
  · exact (instantsValueAt_step_first (by omega) h2).symm
  · simp only [Bool.and_eq_true, beq_iff_eq] at hui
    rw [instantsValueAt_cons_of_le le_rfl, hui.2]
    simp [instantsValueAt]

/-- A constant segment before the pieces of the rest of a step array gives the pieces
of the array. -/
lemma LinearPiecesOf.cons {rest : List (TInstant V)} {lowerInc upperInc : Bool}
    {seq : TSequence V B} {seqs : List (TSequence V B)}
    (h : LinearPiecesOf bt bx (inst2 :: rest) (periodOf (inst2 :: rest) true upperInc) seqs)
    (hs : (inst1 :: inst2 :: rest).Pairwise fun a b => a.t < b.t) (hv : seq.Valid bt bx)
    (hlin : seq.linear = true) (hper : seq.period = ⟨inst1.t, inst2.t, lowerInc, false⟩)
    (hval : ∀ t, containsPeriodTimestamp seq.period t = true → seq.valueAt bt t = some inst1.value) :
    LinearPiecesOf bt bx (inst1 :: inst2 :: rest)
      (periodOf (inst1 :: inst2 :: rest) lowerInc upperInc) (seq :: seqs) := by
  have hafter : ∀ r ∈ seqs, ∀ t, containsPeriodTimestamp r.period t = true → inst2.t ≤ t :=
    fun r hr t ht => by
      simpa [periodOf] using (bounds_of_containsPeriodTimestamp ((h.spans t).mp ⟨r, hr, ht⟩)).1
  have hbefore : ∀ t, containsPeriodTimestamp seq.period t = true → inst1.t ≤ t ∧ t < inst2.t :=
    fun t ht => by
      rw [hper, containsPeriodTimestamp_mk] at ht
      rcases ht with ⟨h1 | ⟨-, h1⟩, h2 | ⟨h2, -⟩⟩ <;> first | omega | cases h2
  refine ⟨List.forall_mem_cons.mpr ⟨⟨hv, hlin⟩, h.valid⟩,
    List.pairwise_cons.mpr ⟨fun r hr t1 t2 h1 h2 => (hbefore t1 h1).2.trans_le (hafter r hr t2 h2),
      h.ordered⟩, fun t => ?_, fun r hr t ht => ?_⟩
  · simp only [List.mem_cons, exists_eq_or_imp]
    by_cases ht : t < inst2.t
    · rw [containsPeriodTimestamp_periodOf_of_lt_second hs ht, ← hper]
      exact ⟨fun h' => h'.resolve_right fun ⟨r, hr, hc⟩ => absurd (hafter r hr t hc) (not_le.mpr ht),
        Or.inl⟩
    · rw [containsPeriodTimestamp_periodOf_of_second_le hs (not_lt.mp ht), ← h.spans]
      exact ⟨fun h' => h'.resolve_left fun hc => ht (hbefore t hc).2, Or.inr⟩
  · rcases List.mem_cons.mp hr with rfl | hr
    · obtain ⟨h1, h2⟩ := hbefore t ht
      rw [hval t ht, instantsValueAt_step_first h1 h2]
    · rw [h.agrees r hr t ht, instantsValueAt_cons_of_le (hafter r hr t ht)]

end Segment

/-- The loop of `tstepseq_to_linear1` from the instant `inst1` on succeeds and returns
the pieces of the step array, whose last segment keeps the upper bound only when its
two values are equal. -/
lemma tstepseqToLinearLoop_pieces (upperInc : Bool) :
    ∀ (lowerInc : Bool) (inst1 inst2 : TInstant V) (rest : List (TInstant V)),
      (inst1 :: inst2 :: rest).Pairwise (fun a b => a.t < b.t) →
      ∃ seqs, tstepseqToLinearLoop bt bx upperInc lowerInc inst1 (inst2 :: rest) = .ok seqs ∧
        LinearPiecesOf bt bx (inst1 :: inst2 :: rest) (periodOf (inst1 :: inst2 :: rest) lowerInc
          (upperInc && (lastTwo? (inst1 :: inst2 :: rest)).all fun p => p.1.value == p.2.value))
          seqs
  | lowerInc, inst1, inst2, [], hs => by
    obtain ⟨seq, h, hp⟩ := linearPiecesOf_last bt bx lowerInc upperInc
      (List.rel_of_pairwise_cons hs (List.mem_cons_self _ _))
    refine ⟨[seq], ?_, hp⟩
    simp [tstepseqToLinearLoop, h, bind, Except.bind, pure, Except.pure]
  | lowerInc, inst1, inst2, inst3 :: rest, hs => by
    obtain ⟨seqs, hloop, hp⟩ := tstepseqToLinearLoop_pieces upperInc true inst2 inst3 rest hs.of_cons
    obtain ⟨seq, h, hv, hlin, hper, hval⟩ := tsequenceMake_constSegment bt bx lowerInc false
      (List.rel_of_pairwise_cons hs (List.mem_cons_self _ _))
    refine ⟨seq :: seqs, ?_, hp.cons hs hv hlin hper hval⟩
    rw [tstepseqToLinearLoop, hloop]
    simp [h, bind, Except.bind, pure, Except.pure]

/-- The instantaneous sequence of the last instant after the pieces of a step array with
an exclusive upper bound gives the pieces with an inclusive one. -/
lemma LinearPiecesOf.append_last {instants init : List (TInstant V)} {lowerInc : Bool}
    {seqs : List (TSequence V B)} {prev last : TInstant V} {seq : TSequence V B}
    (h : LinearPiecesOf bt bx instants (periodOf instants lowerInc false) seqs)
    (hs : instants.Pairwise fun a b => a.t < b.t) (hinit : instants = init ++ [prev, last])
    (hmake : tsequenceMake bt bx [last] true true true false = .ok seq) :
    LinearPiecesOf bt bx instants (periodOf instants lowerInc true) (seqs ++ [seq]) := by
  have happ : instants = (init ++ [prev]) ++ [last] := by rw [hinit]; simp
  have hlast : last.t = lastT instants := by rw [happ]; simp [lastT]
  have hval : instantsValueAt bt false instants last.t = some last.value :=
    happ ▸ instantsValueAt_append_last (happ ▸ hs)
  have hlt : firstT instants < lastT instants := by
    have hprev := firstT_le_of_getElem? hs (hinit ▸ getElem?_append_length init [last] prev)
    have := List.rel_of_pairwise_cons (List.pairwise_append.mp (hinit ▸ hs)).2.1
      (List.mem_singleton_self last)
    omega
  obtain ⟨hper, hlin⟩ := tsequenceMake_period hmake
  have hlastOnly : ∀ t, containsPeriodTimestamp seq.period t = true ↔ t = last.t := fun t => by
    simp [hper]
  have hbefore : ∀ r ∈ seqs, ∀ t, containsPeriodTimestamp r.period t = true → t < last.t :=
    fun r hr t ht => by
      have := (h.spans t).mp ⟨r, hr, ht⟩
      rw [periodOf, containsPeriodTimestamp_mk] at this
      rcases this with ⟨-, h2 | ⟨h2, -⟩⟩ <;> first | omega | cases h2
  refine ⟨List.forall_mem_append.mpr ⟨h.valid, by simpa using ⟨tsequenceMake_valid hmake rfl, hlin⟩⟩,
    List.pairwise_append.mpr ⟨h.ordered, List.pairwise_singleton _ _, fun r hr s hs t1 t2 h1 h2 => ?_⟩,
    fun t => ?_, fun r hr t ht => ?_⟩
  · rw [List.mem_singleton.mp hs, hlastOnly] at h2
    exact h2 ▸ hbefore r hr t1 h1
  · simp only [List.mem_append, List.mem_singleton, or_and_right, exists_or, exists_eq_left,
      h.spans, hlastOnly, periodOf, containsPeriodTimestamp_mk]
    cases lowerInc <;> simp <;> omega
  · rcases List.mem_append.mp hr with hr | hr
    · exact h.agrees r hr t ht
    · rw [List.mem_singleton.mp hr] at ht ⊢
      rw [(hlastOnly t).mp ht, hval, tsequenceMake_valueAt hmake]
      simp [instantsValueAt]

/-- `tstepseq_to_linear1` on a valid sequence succeeds and returns the pieces of its
instants, read with step interpolation, on its period. -/
lemma tstepseqToLinear1_pieces {seq : TSequence V B} (hv : seq.Valid bt bx) :
    ∃ seqs, tstepseqToLinear1 bt bx seq = .ok seqs ∧
      LinearPiecesOf bt bx seq.instants seq.period seqs := by
  have hs := chain'_t_iff_pairwise.mp hv.increasing
  rcases seq with ⟨_ | ⟨inst1, _ | ⟨inst2, rest⟩⟩, period, linear, bbox⟩
  · exact absurd rfl hv.nonempty
  · refine ⟨_, rfl, ⟨?_, List.pairwise_singleton _ _, fun t => by simp [tsequenceCopy], ?_⟩⟩
    · simpa [tsequenceCopy] using ⟨hv.nonempty, hv.increasing, hv.period, hv.instantBounds,
        by simp, rfl, hv.bbox⟩
    · rintro r hr t ht
      rw [List.mem_singleton.mp hr] at ht ⊢
      simp only [tsequenceCopy] at ht
      simp [TSequence.valueAt, tsequenceCopy, ht, instantsValueAt]
  · replace hs : (inst1 :: inst2 :: rest).Pairwise fun a b => a.t < b.t := hs
    obtain ⟨seqs, hloop, hp⟩ :=
      tstepseqToLinearLoop_pieces period.upperInc period.lowerInc inst1 inst2 rest hs
    have hper : period = periodOf (inst1 :: inst2 :: rest) period.lowerInc period.upperInc :=
      hv.period
    rcases hl : lastTwo? (inst1 :: inst2 :: rest) with _ | ⟨x, y⟩
    · rw [hl, Option.all_none, Bool.and_true, ← hper] at hp
      exact ⟨seqs, by simp [tstepseqToLinear1, hloop, hl, bind, Except.bind, pure, Except.pure], hp⟩
    rw [hl, Option.all_some] at hp
    dsimp only at hp
    by_cases hxy : period.upperInc = true ∧ x.value ≠ y.value
    · obtain ⟨seq, hmake⟩ := tsequenceMake_single_ok bt bx true y
      refine ⟨seqs ++ [seq], ?_, ?_⟩
      · simp only [tstepseqToLinear1]
        rw [hloop]
        simp [hl, hxy, hmake, bind, Except.bind, pure, Except.pure]
      rw [hxy.1, Bool.true_and, beq_eq_false_iff_ne.mpr hxy.2] at hp
      obtain ⟨init, hinit⟩ := exists_eq_append_of_lastTwo? hl
      dsimp only
      rw [hper, hxy.1]
      exact hp.append_last hs hinit hmake
    · have hflag : (period.upperInc && x.value == y.value) = period.upperInc := by
        cases hu : period.upperInc
        · rfl
        · simpa [hu] using hxy
      rw [hflag, ← hper] at hp
      refine ⟨seqs, ?_, hp⟩
      simp [tstepseqToLinear1, hloop, hl, hxy, bind, Except.bind, pure, Except.pure]

/-- `tstepseq_to_linear1` on a valid step sequence succeeds and returns valid linear
sequences in time order, so pairwise disjoint, whose periods cover exactly the period
of the sequence, each taking the value of the sequence at every timestamp of its
period. -/
theorem tstepseq_to_linear1_correct {seq : TSequence V B} (hv : seq.Valid bt bx)
    (hstep : seq.linear = false) :
    ∃ seqs, tstepseqToLinear1 bt bx seq = .ok seqs ∧
      (∀ r ∈ seqs, r.Valid bt bx ∧ r.linear = true) ∧ TimeOrdered seqs ∧
      (∀ t, (∃ r ∈ seqs, containsPeriodTimestamp r.period t = true) ↔
        containsPeriodTimestamp seq.period t = true) ∧
      ∀ r ∈ seqs, ∀ t, containsPeriodTimestamp r.period t = true →
        r.valueAt bt t = seq.valueAt bt t := by
  obtain ⟨seqs, h, hp⟩ := tstepseqToLinear1_pieces hv
  refine ⟨seqs, h, hp.valid, hp.ordered, hp.spans, fun r hr t ht => ?_⟩
  rw [hp.agrees r hr t ht, TSequence.valueAt, if_pos ((hp.spans t).mp ⟨r, hr, ht⟩), hstep]

/-- The step float sequence `[1@0, 2@2]` with an inclusive upper bound is valid, so it
converts to linear sequences. -/
theorem tstepseq_to_linear1_correct_floats :
    (⟨[⟨1, 0⟩, ⟨2, 2⟩], ⟨0, 2, true, true⟩, false, ⟨1, 2, 0, 2⟩⟩ : TSequence ℚ TBox).Valid
      (tfloat 0) (tnumberBBox id) ∧
    (⟨[⟨1, 0⟩, ⟨2, 2⟩], ⟨0, 2, true, true⟩, false, ⟨1, 2, 0, 2⟩⟩ : TSequence ℚ TBox).linear = false ∧
    ∃ seqs, tstepseqToLinear1 (tfloat 0) (tnumberBBox id)
        (⟨[⟨1, 0⟩, ⟨2, 2⟩], ⟨0, 2, true, true⟩, false, ⟨1, 2, 0, 2⟩⟩ : TSequence ℚ TBox) = .ok seqs ∧
      (∀ r ∈ seqs, r.Valid (tfloat 0) (tnumberBBox id) ∧ r.linear = true) ∧ TimeOrdered seqs ∧
      (∀ t, (∃ r ∈ seqs, containsPeriodTimestamp r.period t = true) ↔
        containsPeriodTimestamp ⟨0, 2, true, true⟩ t = true) ∧
      ∀ r ∈ seqs, ∀ t, containsPeriodTimestamp r.period t = true →
        r.valueAt (tfloat 0) t = TSequence.valueAt (tfloat 0)
          (⟨[⟨1, 0⟩, ⟨2, 2⟩], ⟨0, 2, true, true⟩, false, ⟨1, 2, 0, 2⟩⟩ : TSequence ℚ TBox) t := by
  have hv : (⟨[⟨1, 0⟩, ⟨2, 2⟩], ⟨0, 2, true, true⟩, false, ⟨1, 2, 0, 2⟩⟩ :
      TSequence ℚ TBox).Valid (tfloat 0) (tnumberBBox id) := by
    simp [TSequence.valid_iff, lastTwo?, periodOf, lastT, tinstantarrNormalize,
      tinstantarrNormalizeLoop, tnumberBBox, tboxExpand]
  exact ⟨hv, rfl, tstepseq_to_linear1_correct hv rfl⟩

end TemporalSequence
