import TemporalSequence.Proofs.RestrictPeriod

/-!
# Restriction to the complement of a period and to period sets

`tsequence_at_periodset` restricts the sequence to each period of the set from the first
one that does not end before the sequence starts; on a well-formed sequence it returns
sequences in time order that denote the sequence restricted to the set.
`tsequence_minus_period1` restricts the sequence to each piece of the difference of its
period and the period, but then returns the count of pieces read from the period set it
has just freed. It is sound where no piece is cut out, and reads freed memory on every
sequence of at least two instants that the period splits; `tsequence_minus_periodset`
calls it on its first period that reaches the sequence.
-/

namespace TemporalSequence

variable {V B : Type} [DecidableEq V]

/-- `r` is well formed, interpolates as `seq` does and denotes `seq` restricted to the
timestamps of `p`. -/
def TSequence.RestrictsTo (bt : BaseType V) (seq r : TSequence V B) (p : Period) : Prop :=
  r.WellFormed ∧ r.linear = seq.linear ∧
    ∀ t, r.valueAt bt t = if containsPeriodTimestamp p t then seq.valueAt bt t else none

/-- The sequences returned by a restriction are in time order. -/
def TimeOrdered (seqs : List (TSequence V B)) : Prop :=
  seqs.Pairwise fun seq1 seq2 => seq1.period.Before seq2.period

variable {bt : BaseType V} (bx : BBoxOps V B) {seq : TSequence V B}

lemma TSequence.RestrictsTo.contains {r : TSequence V B} {p : Period}
    (h : seq.RestrictsTo bt r p) {t : ℤ} (ht : containsPeriodTimestamp r.period t = true) :
    containsPeriodTimestamp p t = true :=
  contains_of_valueAt_eq_ite h.1 h.2.2 ht

/-- The period `p` cuts a piece out of the sequence: it overlaps a sequence of at least
two instants without covering its period. -/
def TSequence.SplitBy (seq : TSequence V B) (p : Period) : Prop :=
  overlapsPeriodPeriod seq.period p = true ∧ 1 < seq.instants.length ∧
    minusPeriodPeriod seq.period p ≠ []

instance (seq : TSequence V B) (p : Period) : Decidable (seq.SplitBy p) :=
  inferInstanceAs (Decidable (_ ∧ _ ∧ _))

/-- The period `s` ends no later than `p`. -/
def Period.EndsBy (s p : Period) : Prop :=
  s.upper < p.upper ∨ s.upper = p.upper ∧ (s.upperInc = true → p.upperInc = true)

lemma Period.Precedes.not_overlaps {s p : Period} (h : s.Precedes p) :
    overlapsPeriodPeriod s p = false := by
  by_contra ho
  simp only [Bool.not_eq_false, overlapsPeriodPeriod, Bool.and_eq_true, Bool.or_eq_true,
    decide_eq_true_eq, beq_iff_eq] at ho
  obtain ⟨-, hlt | ⟨⟨heq, hp⟩, hs⟩⟩ := ho <;> rcases h with h | ⟨h, hn⟩
  · omega
  · omega
  · omega
  · exact hn ⟨hs, hp⟩

lemma Period.EndsBy.precedes {s p q : Period} (hend : s.EndsBy p) (hpq : p.Precedes q) :
    s.Precedes q := by
  rcases hend with hend | ⟨hend, hinc⟩ <;> rcases hpq with hpq | ⟨hpq, hn⟩
  · exact .inl (by omega)
  · exact .inl (by omega)
  · exact .inl (by omega)
  · exact .inr ⟨by omega, fun ⟨hs, hq⟩ => hn ⟨hinc hs, hq⟩⟩

/-- The test on which the loop of `tsequence_minus_periodset` stops: the period `s` ends
before `p` starts. -/
lemma Period.precedes_of_before {s p : Period}
    (h : s.upper < p.lower ∨ (s.upper = p.lower ∧ s.upperInc = true ∧ (!p.lowerInc) = true)) :
    s.Precedes p := by
  rcases h with h | ⟨h, -, h'⟩
  · exact .inl h
  · exact .inr ⟨h, fun h'' => by simp [h''.2] at h'⟩

lemma Period.endsBy_of_before {s p : Period} (hp : p.Valid)
    (h : s.upper < p.lower ∨ (s.upper = p.lower ∧ s.upperInc = true ∧ (!p.lowerInc) = true)) :
    s.EndsBy p := by
  unfold Period.Valid at hp
  rcases h with h | ⟨h, -, hinc⟩ <;> rcases hp with hp | ⟨hp, hl, -⟩
  · exact .inl (by omega)
  · exact .inl (by omega)
  · exact .inl (by omega)
  · simp [hl] at hinc

section WellFormed

variable (hbt : seq.linear = true → LawfulBaseType bt) (hwf : seq.WellFormed)
include hbt hwf

lemma tsequenceAtPeriods_forall₂ {ps : List Period} (hv : ∀ q ∈ ps, q.Valid)
    (ho : ∀ q ∈ ps, overlapsPeriodPeriod seq.period q = true) :
    ∃ rs, tsequenceAtPeriods bt bx seq ps = .ok rs ∧
      List.Forall₂ (fun q r => seq.RestrictsTo bt r q) ps rs := by
  induction ps with
  | nil => exact ⟨[], rfl, .nil⟩
  | cons q ps ih =>
    have hq := hv q (List.mem_cons_self _ _)
    obtain ⟨res, hres, hsome, -⟩ := tsequenceAtPeriod_valueAt bt bx hbt hwf hq
    rw [ho q (List.mem_cons_self _ _)] at hsome
    obtain ⟨r, rfl⟩ := Option.isSome_iff_exists.mp hsome
    obtain ⟨rs, hrs, hF⟩ := ih (fun q hq => hv q (List.mem_cons_of_mem _ hq))
      (fun q hq => ho q (List.mem_cons_of_mem _ hq))
    refine ⟨r :: rs, ?_, .cons (tsequenceAtPeriod_some hbt hwf hq hres) hF⟩
    simp [tsequenceAtPeriods, hres, hrs, bind, Except.bind, pure, Except.pure]

/-- The loop of `tsequence_at_periodset` over periods in time order returns, in time
order, restrictions to these periods that denote the restriction to their union. -/
lemma tsequenceAtPeriodsetLoop_spec {ps : List Period} (hv : ∀ q ∈ ps, q.Valid)
    (hps : ps.Pairwise Period.Precedes) :
    ∃ rs, tsequenceAtPeriodsetLoop bt bx seq ps = .ok rs ∧
      (∀ r ∈ rs, ∃ q ∈ ps, seq.RestrictsTo bt r q) ∧ TimeOrdered rs ∧
      ∀ t, sequencesValueAt bt rs t =
        if ∃ q ∈ ps, containsPeriodTimestamp q t = true then seq.valueAt bt t else none := by
  induction ps with
  | nil => exact ⟨[], rfl, by simp, List.Pairwise.nil, by simp⟩
  | cons p ps ih =>
    have hp := hv p (List.mem_cons_self _ _)
    obtain ⟨res, hres, -, -, hval⟩ := tsequenceAtPeriod_valueAt bt bx hbt hwf hp
    have hres' : ∀ r ∈ res, seq.RestrictsTo bt r p := fun r hr =>
      tsequenceAtPeriod_some hbt hwf hp (by rw [hres, Option.mem_def.mp hr])
    have hvalres : ∀ t, sequencesValueAt bt res.toList t = res.bind fun r => r.valueAt bt t := by
      intro t
      cases res <;> simp
    obtain ⟨rs, hrs, hmem, hord, hvalrs⟩ := ih (fun q hq => hv q (List.mem_cons_of_mem _ hq))
      hps.of_cons
    by_cases hstop : seq.period.upper < p.upper
    · refine ⟨res.toList, by simp [tsequenceAtPeriodsetLoop, hres, hstop, bind, Except.bind,
        pure, Except.pure], fun r hr => ⟨p, List.mem_cons_self _ _, hres' r (by simpa using hr)⟩,
        ?_, fun t => ?_⟩
      · cases res <;> simp [TimeOrdered]
      · rw [hvalres, hval]
        by_cases hpt : containsPeriodTimestamp p t = true
        · simp [hpt]
        · by_cases hex : ∃ q ∈ ps, containsPeriodTimestamp q t = true
          · obtain ⟨q, hq, hqt⟩ := hex
            have h1 := (List.rel_of_pairwise_cons hps hq).upper_le
            have h2 := bounds_of_containsPeriodTimestamp hqt
            simp [TSequence.valueAt_of_upper_lt (show seq.period.upper < t by omega)]
          · simp [hpt, hex]
    · refine ⟨res.toList ++ rs, by simp [tsequenceAtPeriodsetLoop, hres, hstop, hrs, bind,
        Except.bind, pure, Except.pure], fun r hr => ?_, ?_, fun t => ?_⟩
      · rcases List.mem_append.mp hr with hr | hr
        · exact ⟨p, List.mem_cons_self _ _, hres' r (by simpa using hr)⟩
        · obtain ⟨q, hq, h⟩ := hmem r hr
          exact ⟨q, List.mem_cons_of_mem _ hq, h⟩
      · refine List.pairwise_append.mpr ⟨by cases res <;> simp, hord, fun r hr r' hr' => ?_⟩
        obtain ⟨q, hq, h⟩ := hmem r' hr'
        exact fun t1 t2 h1 h2 => (List.rel_of_pairwise_cons hps hq).before t1 t2
          ((hres' r (by simpa using hr)).contains h1) (h.contains h2)
      · rw [sequencesValueAt_append, hvalres, hval, hvalrs]
        by_cases hpt : containsPeriodTimestamp p t = true
        · cases seq.valueAt bt t <;> simp [hpt]
        · simp [hpt]

/-- `tsequence_at_periodset` succeeds on a set of valid periods in time order, with
sequences in time order that denote the sequence restricted to the set. -/
theorem tsequenceAtPeriodset_spec {ps : List Period} (hv : ∀ q ∈ ps, q.Valid)
    (hps : ps.Pairwise Period.Precedes) :
    ∃ rs, tsequenceAtPeriodset bt bx seq ps = .ok rs ∧
      (∀ r ∈ rs, r.WellFormed ∧ r.linear = seq.linear) ∧ TimeOrdered rs ∧
      ∀ t, sequencesValueAt bt rs t =
        if containsPeriodsetTimestamp ps t then seq.valueAt bt t else none := by
  have hset : ∀ t, containsPeriodsetTimestamp ps t = true ↔
      ∃ q ∈ ps, containsPeriodTimestamp q t = true := by
    simp [containsPeriodsetTimestamp]
  by_cases ho : overlapsPeriodPeriod seq.period (periodsetBbox ps) = true
  swap
  · refine ⟨[], by simp [tsequenceAtPeriodset, ho, pure, Except.pure], by simp,
      List.Pairwise.nil, fun t => ?_⟩
    by_cases hpt : containsPeriodsetTimestamp ps t = true
    · obtain ⟨q, hq, hqt⟩ := (hset t).mp hpt
      have hbt := containsPeriodTimestamp_periodsetBbox hv hps hq hqt
      have hst : containsPeriodTimestamp seq.period t ≠ true :=
        fun hst => ho (overlapsPeriodPeriod_of_contains hst hbt)
      simp [hpt, TSequence.valueAt, hst]
    · simp [hpt]
  match hi : seq.instants with
  | [] => exact absurd hi hwf.nonempty
  | [inst] =>
    obtain ⟨inst', hi', hper⟩ := hwf.period_of_length_one (by simp [hi])
    obtain rfl : inst = inst' := by simpa [hi] using hi'
    have hval : ∀ t, seq.valueAt bt t = if t = inst.t then some inst.value else none := by
      intro t
      by_cases ht : t = inst.t
      · subst ht
        simp [TSequence.valueAt, hper, containsPeriodTimestamp, hi, instantsValueAt]
      · have : containsPeriodTimestamp seq.period t = false := by
          simp [hper, containsPeriodTimestamp, ht]
          omega
        simp [TSequence.valueAt_of_not_contains this, ht]
    by_cases hin : containsPeriodsetTimestamp ps inst.t = true
    · refine ⟨[seq], by simp [tsequenceAtPeriodset, ho, hi, hin, tsequenceCopy, pure,
        Except.pure], by simp [hwf], List.pairwise_singleton _ _, fun t => ?_⟩
      rw [sequencesValueAt_cons, sequencesValueAt_nil, Option.or_none, hval]
      by_cases ht : t = inst.t
      · simp [ht, hin]
      · simp [ht]
    · refine ⟨[], by simp [tsequenceAtPeriodset, ho, hi, hin, pure, Except.pure], by simp,
        List.Pairwise.nil, fun t => ?_⟩
      rw [sequencesValueAt_nil, hval]
      by_cases ht : t = inst.t
      · simp [ht, hin]
      · simp [ht]
  | inst1 :: inst2 :: rest =>
    set k := periodsetFindTimestamp ps seq.period.lower
    have hsplit : ps.takeWhile (fun p => p.upper < seq.period.lower ||
        (p.upper == seq.period.lower && !p.upperInc)) = ps.take k := by
      conv_rhs => rw [← List.takeWhile_append_dropWhile (fun p => p.upper < seq.period.lower ||
        (p.upper == seq.period.lower && !p.upperInc)) ps]
      exact (List.take_left' rfl).symm
    have hbefore : ∀ q ∈ ps.take k, ∀ t, containsPeriodTimestamp q t = true →
        t < seq.period.lower := fun q hq t hqt => by
      rw [← hsplit] at hq
      have hq := List.mem_takeWhile_imp hq
      simp only [Bool.or_eq_true, decide_eq_true_eq, Bool.and_eq_true, beq_iff_eq,
        Bool.not_eq_true'] at hq
      have hpre : q.Precedes ⟨seq.period.lower, seq.period.lower, true, true⟩ := by
        rcases hq with hq | hq <;> simp [Period.Precedes, hq]
      exact hpre.before t _ hqt (by simp [containsPeriodTimestamp])
    obtain ⟨rs, hrs, hmem, hord, hval⟩ := tsequenceAtPeriodsetLoop_spec bx hbt hwf
      (fun q hq => hv q (List.mem_of_mem_drop hq)) (hps.sublist (List.drop_sublist k ps))
    refine ⟨rs, by simp [tsequenceAtPeriodset, ho, hi]; exact hrs, fun r hr => ?_, hord,
      fun t => ?_⟩
    · obtain ⟨q, -, h⟩ := hmem r hr
      exact ⟨h.1, h.2.1⟩
    · rw [hval]
      by_cases hlo : t < seq.period.lower
      · simp [TSequence.valueAt_of_lt_lower hlo]
      have hiff : (∃ q ∈ ps.drop k, containsPeriodTimestamp q t = true) ↔
          containsPeriodsetTimestamp ps t = true := by
        rw [hset]
        constructor
        · rintro ⟨q, hq, hqt⟩
          exact ⟨q, List.mem_of_mem_drop hq, hqt⟩
        · rintro ⟨q, hq, hqt⟩
          rw [← List.take_append_drop k ps] at hq
          rcases List.mem_append.mp hq with hq | hq
          · exact absurd (hbefore q hq t hqt) hlo
          · exact ⟨q, hq, hqt⟩
      simp only [hiff]

omit hbt in
/-- Where the period cuts no piece out of the sequence, `tsequence_minus_period1`
succeeds with the sequence outside the period: the whole sequence when it misses the
period, nothing when the period covers it. -/
lemma tsequenceMinusPeriod1_of_not_split {p : Period} (hsplit : ¬seq.SplitBy p) :
    ∃ rs, tsequenceMinusPeriod1 bt bx seq p = .ok rs ∧ (rs = [] ∨ rs = [seq]) ∧
      ∀ t, sequencesValueAt bt rs t =
        if containsPeriodTimestamp p t then none else seq.valueAt bt t := by
  by_cases ho : overlapsPeriodPeriod seq.period p = true
  swap
  · refine ⟨[seq], by simp [tsequenceMinusPeriod1, ho, tsequenceCopy, pure, Except.pure],
      .inr rfl, fun t => ?_⟩
    by_cases hpt : containsPeriodTimestamp p t = true
    · have hst : containsPeriodTimestamp seq.period t ≠ true :=
        fun hst => ho (overlapsPeriodPeriod_of_contains hst hpt)
      simp [hpt, TSequence.valueAt, hst]
    · simp [hpt]
  by_cases hlen : seq.instants.length = 1
  · refine ⟨[], by simp [tsequenceMinusPeriod1, ho, hlen]; rfl, .inl rfl, fun t => ?_⟩
    obtain ⟨inst, -, hper⟩ := hwf.period_of_length_one hlen
    rw [hper, overlapsPeriodPeriod_instant] at ho
    rw [sequencesValueAt_nil, TSequence.valueAt, hper]
    by_cases hpt : containsPeriodTimestamp p t = true
    · simp [hpt]
    · have ht : containsPeriodTimestamp ⟨inst.t, inst.t, true, true⟩ t ≠ true := fun h => by
        obtain rfl : t = inst.t := by
          have := bounds_of_containsPeriodTimestamp h
          dsimp only at this
          omega
        exact hpt ho
      simp [hpt, ht]
  have hmin : minusPeriodPeriod seq.period p = [] := by
    by_contra hne
    have := List.length_pos.mpr hwf.nonempty
    exact hsplit ⟨ho, by omega, hne⟩
  refine ⟨[], by simp [tsequenceMinusPeriod1, ho, hlen, hmin]; rfl, .inl rfl, fun t => ?_⟩
  have h := @minusPeriodPeriod_contains seq.period p t
  rw [hmin] at h
  rw [sequencesValueAt_nil]
  split_ifs with hpt
  · rfl
  · exact (TSequence.valueAt_of_not_contains (by simpa [hpt] using h)).symm

omit hbt hwf in
/-- When `tsequence_minus_period1` leaves nothing of a sequence of at least two instants,
the sequence ends by the period. -/
lemma tsequenceMinusPeriod1_endsBy {p : Period} (h : tsequenceMinusPeriod1 bt bx seq p = .ok [])
    (hlen : 1 < seq.instants.length) : seq.period.EndsBy p := by
  have ho : overlapsPeriodPeriod seq.period p = true := by
    by_contra ho
    simp [tsequenceMinusPeriod1, ho, pure, Except.pure] at h
  rcases hmin : minusPeriodPeriod seq.period p with _ | ⟨q, qs⟩
  · unfold minusPeriodPeriod at hmin
    simp only [ho, Bool.not_true, Bool.false_eq_true, if_false, List.append_eq_nil,
      ite_eq_right_iff, reduceCtorEq, imp_false, not_or, not_and, not_lt] at hmin
    rcases hmin.2.1.lt_or_eq with hlt | heq
    · exact .inl hlt
    · exact .inr ⟨heq, fun hinc => by simpa using hmin.2.2 heq.symm hinc⟩
  · obtain ⟨rs, hrs⟩ : ∃ rs, tsequenceAtPeriods bt bx seq (q :: qs) = .ok rs ∨
        ∃ e, tsequenceAtPeriods bt bx seq (q :: qs) = .error e := by
      cases tsequenceAtPeriods bt bx seq (q :: qs) with
      | ok rs => exact ⟨rs, .inl rfl⟩
      | error e => exact ⟨[], .inr ⟨e, rfl⟩⟩
    rcases hrs with hrs | ⟨e, hrs⟩ <;>
      simp [tsequenceMinusPeriod1, ho, hlen.ne', hmin, hrs, bind, Except.bind, throw, throwThe,
        MonadExceptOf.throw, pure, Except.pure] at h

lemma tsequenceMinusPeriod1_freed {p : Period} (hsplit : seq.SplitBy p) :
    tsequenceMinusPeriod1 bt bx seq p = .error "ps->count is read after pfree(ps)" := by
  obtain ⟨ho, hlen, hne⟩ := hsplit
  obtain ⟨rs, hrs, -⟩ := tsequenceAtPeriods_forall₂ bx hbt hwf
    (minusPeriodPeriod_valid hwf.periodValid) (minusPeriodPeriod_overlaps hwf.periodValid)
  obtain ⟨q, qs, hq⟩ := List.exists_cons_of_ne_nil hne
  rw [hq] at hrs
  simp [tsequenceMinusPeriod1, ho, hlen.ne', hq, hrs, bind, Except.bind, throw, throwThe,
    MonadExceptOf.throw, pure, Except.pure]

/-- The loop of `tsequence_minus_periodset` over valid periods in time order reaches the
read of freed memory when one of the periods splits the sequence: every period before it
leaves the sequence whole. -/
lemma tsequenceMinusPeriodsetLoop_freed {ps : List Period} (hv : ∀ q ∈ ps, q.Valid)
    (hps : ps.Pairwise Period.Precedes) (hsplit : ∃ q ∈ ps, seq.SplitBy q) :
    tsequenceMinusPeriodsetLoop bt bx seq ps = .error "ps->count is read after pfree(ps)" := by
  induction ps with
  | nil => simp at hsplit
  | cons p rest ih =>
    have hp := hv p (List.mem_cons_self _ _)
    by_cases hpsplit : seq.SplitBy p
    · have hreach := fun h => Bool.false_ne_true
        ((Period.precedes_of_before h).not_overlaps.symm.trans hpsplit.1)
      rw [tsequenceMinusPeriodsetLoop, if_neg hreach, tsequenceMinusPeriod1_freed bx hbt hwf hpsplit]
      rfl
    obtain ⟨q, hq, hqsplit⟩ : ∃ q ∈ rest, seq.SplitBy q := by
      obtain ⟨q, hq, hqs⟩ := hsplit
      rcases List.mem_cons.mp hq with rfl | hq
      · exact absurd hqs hpsplit
      · exact ⟨q, hq, hqs⟩
    have hlater : ¬seq.period.EndsBy p := fun hend => Bool.false_ne_true
      ((hend.precedes (List.rel_of_pairwise_cons hps hq)).not_overlaps.symm.trans hqsplit.1)
    have hreach := fun h => hlater (Period.endsBy_of_before hp h)
    obtain ⟨ms, hms, hshape, -⟩ := tsequenceMinusPeriod1_of_not_split bx hwf hpsplit
    rw [tsequenceMinusPeriodsetLoop, if_neg hreach, hms]
    rcases hshape with rfl | rfl
    · exact absurd (tsequenceMinusPeriod1_endsBy bx hms hqsplit.2.1) hlater
    · simp only [bind, Except.bind, if_neg (List.ne_nil_of_mem hq)]
      exact ih (fun q hq => hv q (List.mem_cons_of_mem _ hq)) hps.of_cons ⟨q, hq, hqsplit⟩

omit hbt in
/-- One period of the loop of `tsequence_minus_periodset` that does not split the
sequence: the loop stops with the sequence before a later period, stops with nothing
under a period that covers it, and goes on with the sequence past a period that misses
it. -/
private lemma minusPeriodsetLoop_step {p : Period} {rest : List Period}
    (hv : ∀ q ∈ p :: rest, q.Valid) (hps : (p :: rest).Pairwise Period.Precedes)
    (hsplit : ¬seq.SplitBy p)
    (hR : ∃ rs, (if rest = [] then pure [seq] else tsequenceMinusPeriodsetLoop bt bx seq rest) =
      .ok rs ∧ (rs = [] ∨ rs = [seq]) ∧ ∀ t, sequencesValueAt bt rs t =
        if ∃ q ∈ rest, containsPeriodTimestamp q t = true then none else seq.valueAt bt t) :
    ∃ rs, tsequenceMinusPeriodsetLoop bt bx seq (p :: rest) = .ok rs ∧ (rs = [] ∨ rs = [seq]) ∧
      ∀ t, sequencesValueAt bt rs t =
        if ∃ q ∈ p :: rest, containsPeriodTimestamp q t = true then none else seq.valueAt bt t := by
  have hp := hv p (List.mem_cons_self _ _)
  by_cases hbreak : seq.period.upper < p.lower ∨
      (seq.period.upper = p.lower ∧ seq.period.upperInc = true ∧ (!p.lowerInc) = true)
  · refine ⟨[seq], by rw [tsequenceMinusPeriodsetLoop, if_pos hbreak]; rfl, .inr rfl,
      fun t => ?_⟩
    have hpre := Period.precedes_of_before hbreak
    have hcq : ∀ q ∈ p :: rest, seq.period.Precedes q := by
      intro q hq
      rcases List.mem_cons.mp hq with rfl | hq
      · exact hpre
      · exact hpre.trans hp (List.rel_of_pairwise_cons hps hq)
    rw [sequencesValueAt_cons, sequencesValueAt_nil, Option.or_none]
    split_ifs with hex
    · obtain ⟨q, hq, hqt⟩ := hex
      apply TSequence.valueAt_of_not_contains
      cases hc : containsPeriodTimestamp seq.period t
      · rfl
      · exact absurd ((hcq q hq).before t t hc hqt) (lt_irrefl t)
    · rfl
  obtain ⟨ms, hms, hshape, hval⟩ := tsequenceMinusPeriod1_of_not_split bx hwf hsplit
  rw [tsequenceMinusPeriodsetLoop, if_neg hbreak, hms]
  rcases hshape with rfl | rfl
  · refine ⟨[], rfl, .inl rfl, fun t => ?_⟩
    have h := hval t
    rw [sequencesValueAt_nil] at h ⊢
    by_cases hpt : containsPeriodTimestamp p t = true
    · rw [if_pos ⟨p, List.mem_cons_self _ _, hpt⟩]
    · rw [if_neg hpt] at h
      rw [← h, ite_self]
  · obtain ⟨rs, hrs, hshape, hrval⟩ := hR
    refine ⟨rs, hrs, hshape, fun t => ?_⟩
    have h := hval t
    rw [sequencesValueAt_cons, sequencesValueAt_nil, Option.or_none] at h
    rw [hrval, h]
    by_cases hpt : containsPeriodTimestamp p t = true <;>
      by_cases hex : ∃ q ∈ rest, containsPeriodTimestamp q t = true <;> simp [hpt, hex]

omit hbt in
/-- The loop of `tsequence_minus_periodset` over valid periods in time order none of which
splits the sequence returns the sequence or nothing, denoting the sequence outside the
periods. -/
lemma tsequenceMinusPeriodsetLoop_of_not_split {ps : List Period} (hne : ps ≠ [])
    (hv : ∀ q ∈ ps, q.Valid) (hps : ps.Pairwise Period.Precedes)
    (hsplit : ∀ q ∈ ps, ¬seq.SplitBy q) :
    ∃ rs, tsequenceMinusPeriodsetLoop bt bx seq ps = .ok rs ∧ (rs = [] ∨ rs = [seq]) ∧
      ∀ t, sequencesValueAt bt rs t =
        if ∃ q ∈ ps, containsPeriodTimestamp q t = true then none else seq.valueAt bt t := by
  obtain ⟨p, rest, rfl⟩ := List.exists_cons_of_ne_nil hne
  induction rest generalizing p with
  | nil =>
    refine minusPeriodsetLoop_step bx hwf hv hps (hsplit p (List.mem_cons_self _ _))
      ⟨[seq], rfl, .inr rfl, fun t => ?_⟩
    simp
  | cons p2 rest ih =>
    refine minusPeriodsetLoop_step bx hwf hv hps (hsplit p (List.mem_cons_self _ _)) ?_
    rw [if_neg (List.cons_ne_nil _ _)]
    exact ih p2 (List.cons_ne_nil _ _) (fun q hq => hv q (List.mem_cons_of_mem _ hq))
      hps.of_cons (fun q hq => hsplit q (List.mem_cons_of_mem _ hq))

omit hbt in
/-- `tsequence_minus_periodset` from the period of index `from`, on a set of valid
periods in time order whose periods before that index miss the sequence and none of
which splits it, returns the sequence or nothing, denoting the sequence outside the
set. -/
lemma tsequenceMinusPeriodset_of_not_split {ps : List Period} (hv : ∀ q ∈ ps, q.Valid)
    (hps : ps.Pairwise Period.Precedes) {«from» : ℕ} (hfrom : «from» < ps.length)
    (hskip : ∀ q ∈ ps.take «from», ∀ t, containsPeriodTimestamp q t = true →
      containsPeriodTimestamp seq.period t = false)
    (hsplit : ∀ q ∈ ps.drop «from», ¬seq.SplitBy q) :
    ∃ rs, tsequenceMinusPeriodset bt bx seq ps «from» = .ok rs ∧ (rs = [] ∨ rs = [seq]) ∧
      ∀ t, sequencesValueAt bt rs t =
        if containsPeriodsetTimestamp ps t then none else seq.valueAt bt t := by
  obtain ⟨rs, hrs, hshape, hval⟩ := tsequenceMinusPeriodsetLoop_of_not_split bx hwf
    (by simpa using hfrom) (fun q hq => hv q (List.mem_of_mem_drop hq))
    (hps.sublist (List.drop_sublist _ _)) hsplit
  refine ⟨rs, hrs, hshape, fun t => ?_⟩
  rw [hval]
  by_cases hex : ∃ q ∈ ps.drop «from», containsPeriodTimestamp q t = true
  · obtain ⟨q, hq, hqt⟩ := hex
    rw [if_pos ⟨q, hq, hqt⟩, if_pos (by
      simpa [containsPeriodsetTimestamp] using ⟨q, List.mem_of_mem_drop hq, hqt⟩)]
  · rw [if_neg hex]
    by_cases hpt : containsPeriodsetTimestamp ps t = true
    · obtain ⟨q, hq, hqt⟩ : ∃ q ∈ ps, containsPeriodTimestamp q t = true := by
        simpa [containsPeriodsetTimestamp] using hpt
      rw [← List.take_append_drop «from» ps] at hq
      rcases List.mem_append.mp hq with hq | hq
      · rw [if_pos hpt, TSequence.valueAt_of_not_contains (hskip q hq t hqt)]
      · exact absurd ⟨q, hq, hqt⟩ hex
    · rw [if_neg hpt]

lemma tsequenceMinusPeriodset_freed {ps : List Period} (hv : ∀ q ∈ ps, q.Valid)
    (hps : ps.Pairwise Period.Precedes) («from» : ℕ)
    (hsplit : ∃ q ∈ ps.drop «from», seq.SplitBy q) :
    tsequenceMinusPeriodset bt bx seq ps «from» = .error "ps->count is read after pfree(ps)" :=
  tsequenceMinusPeriodsetLoop_freed bx hbt hwf (fun q hq => hv q (List.mem_of_mem_drop hq))
    (hps.sublist (List.drop_sublist _ _)) hsplit

end WellFormed

end TemporalSequence
