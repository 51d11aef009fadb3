import TemporalSequence.Proofs.Restrict

/-!
# Restricting a sequence to an array of values

`tsequence_at_values1` restricts each segment of a sequence to each value of an array
in turn and sorts the pieces by their start. `tsequence_restrict_values` normalizes them
on the `at` side; on the `minus` side it restricts the sequence to the periods of its
period that they leave, the difference that `minus_period_periodset_internal` computes.
On a valid sequence whose box test is sound the two sides split the sequence: at each
timestamp one side has the value of the sequence and the other none. The `at` side
holds each instant of the period whose value is in the array, and with step
interpolation exactly the timestamps where the sequence takes one of the values.
-/

namespace TemporalSequence

variable {V B : Type} [DecidableEq V]

/-- What `tsequence_at_values1` returns for the instant array `instants` in its period
`p`: pieces of the array that cover an instant of `p` exactly when its value is one of
`values`, and with step interpolation exactly the timestamps where the array takes one
of them. -/
structure AtValuesResult (bt : BaseType V) (linear : Bool) (values : List V)
    (instants : List (TInstant V)) (p : Period) (seqs : List (TSequence V B)) : Prop where
  pieces : PiecesOf bt linear instants p seqs
  step : linear = false → ∀ t, 0 < timesCovered seqs t ↔
    containsPeriodTimestamp p t = true ∧
      ∃ value ∈ values, instantsValueAt bt false instants t = some value
  samples : ∀ inst ∈ instants, containsPeriodTimestamp p inst.t = true →
    (0 < timesCovered seqs inst.t ↔ inst.value ∈ values)

/-! ## Unions over the values -/

section Union

variable {bt : BaseType V} {linear : Bool} {instants : List (TInstant V)} {p : Period}
  {values : List V}

lemma atValuesResult_nil : AtValuesResult bt linear [] instants p ([] : List (TSequence V B)) :=
  ⟨piecesOf_nil, fun _ _ => by simp, fun _ _ _ => by simp⟩

lemma AtValueResult.cons {value : V} {seqs1 seqs2 : List (TSequence V B)}
    (h1 : AtValueResult bt linear value instants p seqs1)
    (h2 : AtValuesResult bt linear values instants p seqs2) :
    AtValuesResult bt linear (value :: values) instants p (seqs1 ++ seqs2) where
  pieces := piecesOf_append.mpr ⟨h1.pieces, h2.pieces⟩
  step hl t := by
    rw [timesCovered_append, Nat.add_pos_iff_pos_or_pos, h1.step hl t, h2.step hl t]
    simp only [List.mem_cons, exists_eq_or_imp]
    split_ifs with h
    · simp [h]
    · simp only [lt_self_iff_false, false_or]
      tauto
  samples inst hinst ht := by
    rw [timesCovered_append, Nat.add_pos_iff_pos_or_pos, h1.samples inst hinst ht,
      h2.samples inst hinst ht, List.mem_cons]
    split_ifs with h <;> simp [h]

lemma AtValuesResult.perm {seqs seqs' : List (TSequence V B)}
    (h : AtValuesResult bt linear values instants p seqs) (hp : seqs'.Perm seqs) :
    AtValuesResult bt linear values instants p seqs' where
  pieces r hr := h.pieces r (hp.mem_iff.mp hr)
  step hl t := by
    rw [timesCovered, hp.countP_eq]
    exact h.step hl t
  samples inst hinst ht := by
    rw [timesCovered, hp.countP_eq]
    exact h.samples inst hinst ht

lemma AtValuesResult.congr_values {values' : List V} {seqs : List (TSequence V B)}
    (h : AtValuesResult bt linear values instants p seqs)
    (hv : ∀ inst ∈ instants, inst.value ∈ values ↔ inst.value ∈ values') :
    AtValuesResult bt linear values' instants p seqs where
  pieces := h.pieces
  step hl t := by
    rw [h.step hl t]
    refine and_congr_right fun _ => ⟨fun ⟨v, hv1, hx⟩ => ⟨v, ?_, hx⟩, fun ⟨v, hv1, hx⟩ => ⟨v, ?_, hx⟩⟩
    · obtain ⟨inst, hinst, rfl⟩ := instantsValueAt_step_mem hx
      exact (hv inst hinst).mp hv1
    · obtain ⟨inst, hinst, rfl⟩ := instantsValueAt_step_mem hx
      exact (hv inst hinst).mpr hv1
  samples inst hinst ht := (h.samples inst hinst ht).trans (hv inst hinst)

end Union

/-! ## The loops of `tsequence_at_values1` -/

section Loop

variable {bt : BaseType V} {linear : Bool} {values : List V} {inst1 inst2 : TInstant V}
  {rest : List (TInstant V)} {lowerInc upperInc : Bool}

/-- The inner loop of `tsequence_at_values1` succeeds on a segment with its restriction
to the values. -/
lemma tsequenceAtValuesSegment_spec (bx : BBoxOps V B) (h12 : inst1.t < inst2.t)
    (lowerInc upperInc : Bool)
    (hcross : linear = true → ∀ value ∈ values,
      ∀ r ∈ tlinearseqIntersectionValue bt inst1 inst2 value, inst1.t < r.2 ∧ r.2 < inst2.t) :
    ∃ seqs, tsequenceAtValuesSegment bt bx inst1 inst2 linear lowerInc upperInc values = .ok seqs ∧
      AtValuesResult bt linear values [inst1, inst2] ⟨inst1.t, inst2.t, lowerInc, upperInc⟩ seqs := by
  induction values with
  | nil => exact ⟨[], rfl, atValuesResult_nil⟩
  | cons value values ih =>
    obtain ⟨res, hres, hA⟩ := tsequenceAtValue1_spec h12 bx lowerInc upperInc
      fun hl => hcross hl value (List.mem_cons_self _ _)
    obtain ⟨seqs, hseqs, hB⟩ := ih fun hl v hv => hcross hl v (List.mem_cons_of_mem _ hv)
    exact ⟨res.toList ++ seqs, by simp only [tsequenceAtValuesSegment, hres, hseqs]; rfl, hA.cons hB⟩

/-- What the inner loop returns for the first segment followed by what the segment loop
returns for the rest of the array is what the segment loop returns for the array. -/
lemma AtValuesResult.append (hs : (inst1 :: inst2 :: rest).Pairwise fun a b => a.t < b.t)
    {seqs1 seqs2 : List (TSequence V B)}
    (h1 : AtValuesResult bt linear values [inst1, inst2] ⟨inst1.t, inst2.t, lowerInc, false⟩ seqs1)
    (h2 : AtValuesResult bt linear values (inst2 :: rest) (periodOf (inst2 :: rest) true upperInc)
      seqs2) :
    AtValuesResult bt linear values (inst1 :: inst2 :: rest)
      (periodOf (inst1 :: inst2 :: rest) lowerInc upperInc) (seqs1 ++ seqs2) := by
  have h12 : inst1.t < inst2.t := List.rel_of_pairwise_cons hs (List.mem_cons_self _ _)
  have hseg : ∀ t, inst2.t ≤ t →
      containsPeriodTimestamp ⟨inst1.t, inst2.t, lowerInc, false⟩ t = false := fun t ht =>
    Bool.eq_false_iff.mpr fun hc => by
      have := containsPeriodTimestamp_mk.mp hc
      simp only [Bool.false_eq_true, false_and, or_false] at this
      omega
  refine ⟨piecesOf_cons_cons hs h1.pieces h2.pieces, fun hl t => ?_, fun inst hinst ht => ?_⟩
  · rw [timesCovered_append]
    rcases lt_or_le t inst2.t with ht | ht
    · rw [h2.pieces.timesCovered_eq_zero (containsPeriodTimestamp_eq_false_of_lt_lower ht), add_zero,
        h1.step hl t, containsPeriodTimestamp_periodOf_of_lt_second hs ht,
        (instantsValueAt_of_lt_second ht : instantsValueAt bt false (inst1 :: inst2 :: rest) t = _)]
    · rw [h1.pieces.timesCovered_eq_zero (hseg t ht), zero_add, h2.step hl t,
        containsPeriodTimestamp_periodOf_of_second_le hs ht, instantsValueAt_cons_of_le ht]
  · rw [timesCovered_append]
    rcases List.mem_cons.mp hinst with rfl | hinst
    · rw [containsPeriodTimestamp_periodOf_of_lt_second hs h12] at ht
      rw [h2.pieces.timesCovered_eq_zero (containsPeriodTimestamp_eq_false_of_lt_lower h12), add_zero]
      exact h1.samples _ (List.mem_cons_self _ _) ht
    · have hle := head_le_of_mem hs.of_cons hinst
      rw [containsPeriodTimestamp_periodOf_of_second_le hs hle] at ht
      rw [h1.pieces.timesCovered_eq_zero (hseg _ hle), zero_add]
      exact h2.samples _ hinst ht

end Loop

/-- The segment loop of `tsequence_at_values1` succeeds on an array of at least two
instants in time order, with its restriction to the values. -/
theorem tsequenceAtValuesLoop_spec {bt : BaseType V} (bx : BBoxOps V B) (linear upperInc : Bool)
    {values : List V} {inst1 : TInstant V} {rest : List (TInstant V)}
    (hrest : rest ≠ []) (hs : (inst1 :: rest).Pairwise fun a b => a.t < b.t)
    (hcross : linear = true → ∀ value ∈ values, (inst1 :: rest).Chain' fun a b =>
      ∀ r ∈ tlinearseqIntersectionValue bt a b value, a.t < r.2 ∧ r.2 < b.t)
    (lowerInc : Bool) :
    ∃ seqs, tsequenceAtValuesLoop bt bx linear upperInc values lowerInc inst1 rest = .ok seqs ∧
      AtValuesResult bt linear values (inst1 :: rest) (periodOf (inst1 :: rest) lowerInc upperInc)
        seqs := by
  induction rest generalizing inst1 lowerInc with
  | nil => exact absurd rfl hrest
  | cons inst2 rest ih =>
    have h12 : inst1.t < inst2.t := List.rel_of_pairwise_cons hs (List.mem_cons_self _ _)
    obtain ⟨seqs1, hseqs1, hA⟩ := tsequenceAtValuesSegment_spec bx h12 lowerInc
      (if rest = [] then upperInc else false) fun hl v hv => (List.chain'_cons.mp (hcross hl v hv)).1
    by_cases hrest' : rest = []
    · subst hrest'
      rw [if_pos rfl] at hseqs1 hA
      refine ⟨seqs1, ?_, by simpa using hA⟩
      simp [tsequenceAtValuesLoop, hseqs1]
    · obtain ⟨seqs, hseqs, hB⟩ := ih hrest' hs.of_cons
        (fun hl v hv => (List.chain'_cons'.mp (hcross hl v hv)).2) true
      refine ⟨seqs1 ++ seqs, ?_, ?_⟩
      · simp only [tsequenceAtValuesLoop, hseqs1, hseqs]
        rfl
      · rw [if_neg hrest'] at hA
        exact AtValuesResult.append hs hA hB

/-- On a single value the segment loop of `tsequence_at_values1` is the segment loop of
`tsequence_at_value`. -/
lemma tsequenceAtValuesLoop_singleton (bt : BaseType V) (bx : BBoxOps V B) (linear upperInc : Bool)
    (value : V) : ∀ lowerInc inst1 rest,
    tsequenceAtValuesLoop bt bx linear upperInc [value] lowerInc inst1 rest =
      tsequenceAtValueLoop bt bx linear upperInc value lowerInc inst1 rest
  | _, _, [] => rfl
  | lowerInc, inst1, inst2 :: rest => by
    simp only [tsequenceAtValuesLoop, tsequenceAtValueLoop, tsequenceAtValuesSegment,
      tsequenceAtValuesLoop_singleton bt bx linear upperInc value true inst2 rest]
    cases tsequenceAtValue1 bt bx inst1 inst2 linear lowerInc (if rest = [] then upperInc else false)
      value with
    | error => rfl
    | ok => simp [bind, Except.bind, pure, Except.pure]

/-- On a single value `tsequence_at_values1` is `tsequence_at_value` followed by the sort
of its pieces. -/
lemma tsequenceAtValues1_singleton (bt : BaseType V) (bx : BBoxOps V B) (seq : TSequence V B)
    (value : V) :
    tsequenceAtValues1 bt bx seq [value] =
      (fun seqs => if seqs.length > 1 then tsequencearrSort seqs else seqs) <$>
        tsequenceAtValue bt bx seq value := by
  rcases h : seq.instants with _ | ⟨inst1, _ | ⟨inst2, rest⟩⟩
  · simp [tsequenceAtValues1, tsequenceAtValue, h]
  · by_cases hv : inst1.value = value <;>
      simp [tsequenceAtValues1, tsequenceAtValue, h, tinstantRestrictValues, hv]
  · by_cases hb : bx.restrictValue seq.bbox value = true <;>
      simp [tsequenceAtValues1, tsequenceAtValue, h, temporalBboxRestrictValues, hb,
        tsequenceAtValuesLoop_singleton]

/-! ## `tsequence_at_values1` -/

section Sequence

variable {bt : BaseType V} {bx : BBoxOps V B} {seq : TSequence V B} {values : List V}
  (hwf : seq.WellFormed)
include hwf

lemma atValuesResult_of_forall_not_mem (hne : ∀ inst ∈ seq.instants, inst.value ∉ values) :
    AtValuesResult bt seq.linear values seq.instants seq.period ([] : List (TSequence V B)) := by
  induction values with
  | nil => exact atValuesResult_nil
  | cons value values ih =>
    exact (valueResults_of_forall_ne hwf fun inst hinst h =>
      hne inst hinst (List.mem_cons.mpr (.inl h))).1.cons
      (ih fun inst hinst h => hne inst hinst (List.mem_cons_of_mem _ h))

lemma atValuesResult_of_instant {inst : TInstant V} (hinst : seq.instants = [inst])
    (hv : inst.value ∈ values) :
    AtValuesResult bt seq.linear values seq.instants seq.period [tsequenceCopy seq] := by
  have hper : seq.period = ⟨inst.t, inst.t, seq.period.lowerInc, seq.period.upperInc⟩ := by
    rw [hwf.period, hinst]
    rfl
  have hc : ∀ t, containsPeriodTimestamp seq.period t = true → t = inst.t := fun t ht => by
    have := bounds_of_containsPeriodTimestamp ht
    rw [hper] at this
    exact le_antisymm this.2 this.1
  refine ⟨piecesOf_copy hwf, fun _ t => ?_, fun i hi ht => ?_⟩
  · by_cases ht : containsPeriodTimestamp seq.period t = true
    · obtain rfl := hc t ht
      simp [tsequenceCopy, ht, hinst, instantsValueAt, hv]
    · simp [tsequenceCopy, ht]
  · obtain rfl : i = inst := by simpa [hinst] using hi
    simp [tsequenceCopy, ht, hv]

/-- On a well-formed sequence with a sound box, provided each crossing of a linear
segment with one of the values lies strictly inside the segment, `tsequence_at_values1`
succeeds with the restriction of the sequence to the values, in each of its branches:
an instantaneous sequence, a box that rules out every value, and the segment loop
followed by the sort. -/
theorem tsequenceAtValues1_spec (hbx : bx.RestrictValueSound)
    (hbox : seq.bbox = bx.make seq.instants seq.period.lowerInc seq.period.upperInc)
    (hcross : seq.linear = true → ∀ value ∈ values, seq.instants.Chain' fun a b =>
      ∀ r ∈ tlinearseqIntersectionValue bt a b value, a.t < r.2 ∧ r.2 < b.t) :
    ∃ seqs, tsequenceAtValues1 bt bx seq values = .ok seqs ∧
      AtValuesResult bt seq.linear values seq.instants seq.period seqs := by
  have hs := chain'_t_iff_pairwise.mp hwf.increasing
  obtain ⟨inst1, rest, h⟩ := List.exists_cons_of_ne_nil hwf.nonempty
  rcases rest with _ | ⟨inst2, rest⟩
  · by_cases hv : inst1.value ∈ values
    · exact ⟨_, by simp [tsequenceAtValues1, h, tinstantRestrictValues, hv]; rfl,
        atValuesResult_of_instant hwf h hv⟩
    · exact ⟨_, by simp [tsequenceAtValues1, h, tinstantRestrictValues, hv]; rfl,
        atValuesResult_of_forall_not_mem hwf (by simpa [h] using hv)⟩
  by_cases hb : temporalBboxRestrictValues bx seq.bbox values = []
  · refine ⟨[], by simp [tsequenceAtValues1, h, hb]; rfl,
      atValuesResult_of_forall_not_mem hwf fun inst hinst hv => ?_⟩
    have hr : bx.restrictValue seq.bbox inst.value = false := by
      simpa using List.filter_eq_nil_iff.mp hb inst.value hv
    exact hbx _ _ _ _ (hbox ▸ hr) inst hinst rfl
  have hper : periodOf (inst1 :: inst2 :: rest) seq.period.lowerInc seq.period.upperInc =
      seq.period := by
    rw [← h]
    exact hwf.period.symm
  obtain ⟨seqs, hseqs, hA⟩ := tsequenceAtValuesLoop_spec bx seq.linear seq.period.upperInc
    (List.cons_ne_nil inst2 rest) (h ▸ hs) (fun hl v hv => h ▸ hcross hl v hv) seq.period.lowerInc
  rw [hper, ← h] at hA
  refine ⟨_, by simp only [tsequenceAtValues1, h, hb, if_false, hseqs]; rfl, ?_⟩
  split_ifs
  · exact hA.perm (List.perm_insertionSort _ _)
  · exact hA

end Sequence

/-! ## `tsequence_restrict_values` -/

lemma sequencesValueAt_isSome_iff (bt : BaseType V) {rs : List (TSequence V B)}
    (hwf : ∀ r ∈ rs, r.WellFormed) (t : ℤ) :
    (sequencesValueAt bt rs t).isSome ↔ ∃ r ∈ rs, containsPeriodTimestamp r.period t = true := by
  rw [sequencesValueAt, List.findSome?_isSome_iff]
  exact exists_congr fun r => and_congr_right fun hr => by rw [TSequence.valueAt_isSome (hwf r hr) t]

section Restrict

variable {bt : BaseType V} (bx : BBoxOps V B) {seq : TSequence V B} {values : List V}

/-- Both sides of `tsequence_restrict_values` succeed: the `at` side normalizes the
restriction of the sequence to the values, which `tsequence_at_values1` computes unless
the box rules out every value, and the `minus` side has the value of the sequence
wherever the `at` side has none, and no value elsewhere. -/
lemma tsequenceRestrictValues_sides (hbt : seq.linear = true → LawfulBaseType bt)
    (hcol : bt.CollinearSound seq.linear) (hbx : bx.RestrictValueSound) (hv : seq.Valid bt bx)
    (hcross : seq.linear = true → ∀ value ∈ values, seq.instants.Chain' fun a b =>
      ∀ r ∈ tlinearseqIntersectionValue bt a b value, a.t < r.2 ∧ r.2 < b.t) :
    ∃ seqs mins, AtValuesResult bt seq.linear values seq.instants seq.period seqs ∧
      (temporalBboxRestrictValues bx seq.bbox values = [] ∧ seqs = [] ∨
        temporalBboxRestrictValues bx seq.bbox values ≠ [] ∧
          tsequenceAtValues1 bt bx seq (temporalBboxRestrictValues bx seq.bbox values) = .ok seqs) ∧
      tsequenceRestrictValues bt bx seq values true = .ok (tsequencearrNormalize bt bx seqs) ∧
      tsequenceRestrictValues bt bx seq values false = .ok mins ∧
      (∀ r ∈ mins, r.WellFormed ∧ r.linear = seq.linear) ∧
      ∀ t, sequencesValueAt bt mins t =
        if sequencesValueAt bt (tsequencearrNormalize bt bx seqs) t = none then seq.valueAt bt t
        else none := by
  have hwf := hv.wellFormed
  have hboxed : ∀ inst ∈ seq.instants, bx.restrictValue seq.bbox inst.value = true :=
    fun inst hinst => by
      by_contra hr
      exact hbx _ _ _ _ (hv.bbox ▸ Bool.eq_false_iff.mpr hr) inst hinst rfl
  by_cases hb : temporalBboxRestrictValues bx seq.bbox values = []
  · refine ⟨[], [seq], atValuesResult_of_forall_not_mem hwf fun inst hinst hval => ?_,
      .inl ⟨hb, rfl⟩, by simp [tsequenceRestrictValues, hb]; rfl, by simp [tsequenceRestrictValues, hb]; rfl,
      by simp [hwf], fun t => by simp [tsequencearrNormalize]⟩
    simpa [hboxed inst hinst] using List.filter_eq_nil_iff.mp hb inst.value hval
  have hcross1 : seq.linear = true → ∀ value ∈ temporalBboxRestrictValues bx seq.bbox values,
      seq.instants.Chain' fun a b =>
        ∀ r ∈ tlinearseqIntersectionValue bt a b value, a.t < r.2 ∧ r.2 < b.t :=
    fun hl v hv1 => hcross hl v (List.mem_filter.mp hv1).1
  obtain ⟨seqs, hseqs, hA1⟩ := tsequenceAtValues1_spec hwf hbx hv.bbox hcross1
  have hA : AtValuesResult bt seq.linear values seq.instants seq.period seqs :=
    hA1.congr_values fun inst hinst => by
      simp [temporalBboxRestrictValues, List.mem_filter, hboxed inst hinst]
  obtain ⟨hwA, -, -⟩ := tsequencearrNormalize_denotes bx hcol hbt
    fun r hr => ⟨(hA.pieces r hr).1, (hA.pieces r hr).2.1⟩
  have hat : tsequenceRestrictValues bt bx seq values true = .ok (tsequencearrNormalize bt bx seqs) := by
    simp [tsequenceRestrictValues, hb, hseqs, tsequencesetMake, bind, Except.bind, pure, Except.pure]
  -- the periods the `minus` side keeps are those of the sequence that the `at` side leaves
  have hkeep : ∀ t, (if containsPeriodsetTimestamp (minusPeriodPeriodset seq.period
      (tsequencesetGetTime (tsequencearrNormalize bt bx seqs))) t = true then seq.valueAt bt t
      else none) = if sequencesValueAt bt (tsequencearrNormalize bt bx seqs) t = none
        then seq.valueAt bt t else none := fun t => by
    by_cases hc : containsPeriodTimestamp seq.period t = true
    · have hcond : containsPeriodsetTimestamp (minusPeriodPeriodset seq.period
          (tsequencesetGetTime (tsequencearrNormalize bt bx seqs))) t = true ↔
          sequencesValueAt bt (tsequencearrNormalize bt bx seqs) t = none := by
        rw [show ∀ ps : List Period, containsPeriodsetTimestamp ps t = true ↔
            ∃ q ∈ ps, containsPeriodTimestamp q t = true by simp [containsPeriodsetTimestamp],
          minusPeriodPeriodset_contains, ← Option.not_isSome_iff_eq_none,
          sequencesValueAt_isSome_iff bt (fun r hr => (hwA r hr).1)]
        simp [hc, containsPeriodsetTimestamp, tsequencesetGetTime]
      simp only [hcond]
    · simp [TSequence.valueAt_of_not_contains (Bool.eq_false_iff.mpr hc)]
  by_cases hS : seqs.isEmpty
  · obtain rfl := List.isEmpty_iff.mp hS
    exact ⟨[], [seq], hA, .inr ⟨hb, hseqs⟩, hat, by simp [tsequenceRestrictValues, hb, hseqs, bind, Except.bind]; rfl,
      by simp [hwf], fun t => by simp [tsequencearrNormalize]⟩
  have hmin : ∀ {mins}, (match minusPeriodPeriodset seq.period
      (tsequencesetGetTime (tsequencearrNormalize bt bx seqs)) with
      | [] => pure []
      | ps2 => tsequenceRestrictPeriodset bt bx seq ps2 true) = Except.ok mins →
      tsequenceRestrictValues bt bx seq values false = .ok mins := fun h => by
    simpa [tsequenceRestrictValues, hb, hseqs, hS, bind, Except.bind, tsequencesetMake] using h
  cases hps : minusPeriodPeriodset seq.period (tsequencesetGetTime (tsequencearrNormalize bt bx seqs)) with
  | nil =>
    refine ⟨seqs, [], hA, .inr ⟨hb, hseqs⟩, hat, hmin (by rw [hps]; rfl), by simp, fun t => ?_⟩
    rw [← hkeep t, hps]
    simp [containsPeriodsetTimestamp]
  | cons q ps =>
    have hvalid : ∀ q ∈ tsequencesetGetTime (tsequencearrNormalize bt bx seqs), q.Valid := by
      simp only [tsequencesetGetTime, List.mem_map]
      rintro _ ⟨r, hr, rfl⟩
      exact (hwA r hr).1.periodValid
    obtain ⟨mins, hmins, hwm, -, hvm⟩ := tsequenceRestrictPeriodset_denotes bx hbt hwf
      (List.cons_ne_nil q ps) (hps ▸ minusPeriodPeriodset_valid hwf.periodValid _)
      (hps ▸ minusPeriodPeriodset_precedes _ hvalid) true (fun _ => hcol) nofun
    refine ⟨seqs, mins, hA, .inr ⟨hb, hseqs⟩, hat, hmin (by rw [hps]; exact hmins), hwm, fun t => ?_⟩
    rw [hvm t, ← hkeep t, hps]

/-- On a valid sequence with a sound box, provided each crossing of a linear segment with
one of the values lies strictly inside the segment, and the collinearity test of the base
type is sound for the interpolation of the sequence, both sides of
`tsequence_restrict_values` succeed with well-formed sequences that split the sequence:
at each timestamp one side has the value of the sequence and the other none. The `at`
side is defined at an instant of the period exactly when its value is one of the values,
and with step interpolation exactly where the sequence takes one of them. -/
theorem tsequenceRestrictValues_spec (values : List V) (hbt : seq.linear = true → LawfulBaseType bt)
    (hcol : bt.CollinearSound seq.linear) (hbx : bx.RestrictValueSound) (hv : seq.Valid bt bx)
    (hcross : seq.linear = true → ∀ value ∈ values, seq.instants.Chain' fun a b =>
      ∀ r ∈ tlinearseqIntersectionValue bt a b value, a.t < r.2 ∧ r.2 < b.t) :
    ∃ ats mins, tsequenceRestrictValues bt bx seq values true = .ok ats ∧
      tsequenceRestrictValues bt bx seq values false = .ok mins ∧
      (∀ r ∈ ats ++ mins, r.WellFormed ∧ r.linear = seq.linear) ∧
      (∀ t, (sequencesValueAt bt ats t).or (sequencesValueAt bt mins t) = seq.valueAt bt t ∧
        (sequencesValueAt bt ats t = none ∨ sequencesValueAt bt mins t = none)) ∧
      (∀ inst ∈ seq.instants, containsPeriodTimestamp seq.period inst.t = true →
        ((sequencesValueAt bt ats inst.t).isSome ↔ inst.value ∈ values)) ∧
      (seq.linear = false → ∀ t, sequencesValueAt bt ats t =
        if ∃ value ∈ values, seq.valueAt bt t = some value then seq.valueAt bt t else none) := by
  obtain ⟨seqs, mins, hA, -, hat, hmin, hwm, hvm⟩ :=
    tsequenceRestrictValues_sides bx hbt hcol hbx hv hcross
  obtain ⟨hwA, -, hvA⟩ := tsequencearrNormalize_denotes bx hcol hbt
    fun r hr => ⟨(hA.pieces r hr).1, (hA.pieces r hr).2.1⟩
  have hats : ∀ t, sequencesValueAt bt (tsequencearrNormalize bt bx seqs) t =
      if 0 < timesCovered seqs t then seq.valueAt bt t else none := fun t => by
    rw [hvA, sequencesValueAt_of_piecesOf hA.pieces]
  refine ⟨_, mins, hat, hmin, List.forall_mem_append.mpr ⟨hwA, hwm⟩, fun t => ?_,
    fun inst hinst ht => ?_, fun hlin t => ?_⟩
  · rw [hvm t]
    cases h : sequencesValueAt bt (tsequencearrNormalize bt bx seqs) t with
    | none => simp
    | some x =>
      have hx : seq.valueAt bt t = some x := by
        rw [hats] at h
        split_ifs at h
        exact h
      simp [hx]
  · have hsome : (seq.valueAt bt inst.t).isSome := (TSequence.valueAt_isSome hv.wellFormed _).trans ht
    rw [hats, ← hA.samples inst hinst ht]
    split_ifs with h <;> simp [h, hsome]
  · by_cases hc : containsPeriodTimestamp seq.period t = true <;>
      simp [hats, hA.step hlin t, TSequence.valueAt, hc, hlin]

/-- The step integer sequence `[1@0, 2@2, 3@4]` is valid, so its restrictions to the
values 1 and 3 split it. -/
theorem tsequenceRestrictValues_spec_step :
    (⟨[⟨1, 0⟩, ⟨2, 2⟩, ⟨3, 4⟩], ⟨0, 4, true, true⟩, false, ⟨1, 3, 0, 4⟩⟩ : TSequence ℤ TBox).Valid
      stepOnly (tnumberBBox (Int.cast : ℤ → ℚ)) ∧
    ∃ ats mins, tsequenceRestrictValues stepOnly (tnumberBBox (Int.cast : ℤ → ℚ))
        ⟨[⟨1, 0⟩, ⟨2, 2⟩, ⟨3, 4⟩], ⟨0, 4, true, true⟩, false, ⟨1, 3, 0, 4⟩⟩ [1, 3] true = .ok ats ∧
      tsequenceRestrictValues stepOnly (tnumberBBox (Int.cast : ℤ → ℚ))
        ⟨[⟨1, 0⟩, ⟨2, 2⟩, ⟨3, 4⟩], ⟨0, 4, true, true⟩, false, ⟨1, 3, 0, 4⟩⟩ [1, 3] false = .ok mins ∧
      (∀ r ∈ ats ++ mins, r.WellFormed ∧ r.linear = false) ∧
      (∀ t, (sequencesValueAt stepOnly ats t).or (sequencesValueAt stepOnly mins t) =
          (⟨[⟨1, 0⟩, ⟨2, 2⟩, ⟨3, 4⟩], ⟨0, 4, true, true⟩, false, ⟨1, 3, 0, 4⟩⟩ :
            TSequence ℤ TBox).valueAt stepOnly t ∧
        (sequencesValueAt stepOnly ats t = none ∨ sequencesValueAt stepOnly mins t = none)) ∧
      (∀ inst ∈ [(⟨1, 0⟩ : TInstant ℤ), ⟨2, 2⟩, ⟨3, 4⟩],
        containsPeriodTimestamp ⟨0, 4, true, true⟩ inst.t = true →
          ((sequencesValueAt stepOnly ats inst.t).isSome ↔ inst.value ∈ [1, 3])) ∧
      (false = false → ∀ t, sequencesValueAt stepOnly ats t =
        if ∃ value ∈ [(1 : ℤ), 3], (⟨[⟨1, 0⟩, ⟨2, 2⟩, ⟨3, 4⟩], ⟨0, 4, true, true⟩, false,
            ⟨1, 3, 0, 4⟩⟩ : TSequence ℤ TBox).valueAt stepOnly t = some value
        then (⟨[⟨1, 0⟩, ⟨2, 2⟩, ⟨3, 4⟩], ⟨0, 4, true, true⟩, false, ⟨1, 3, 0, 4⟩⟩ :
          TSequence ℤ TBox).valueAt stepOnly t
        else none) := by
  have hv : (⟨[⟨1, 0⟩, ⟨2, 2⟩, ⟨3, 4⟩], ⟨0, 4, true, true⟩, false, ⟨1, 3, 0, 4⟩⟩ :
      TSequence ℤ TBox).Valid stepOnly (tnumberBBox (Int.cast : ℤ → ℚ)) := by
    simp [TSequence.valid_iff, lastTwo?, periodOf, lastT, tinstantarrNormalize,
      tinstantarrNormalizeLoop, normalizeRedundant, tnumberBBox, tboxExpand]
    norm_num
  exact ⟨hv, tsequenceRestrictValues_spec (tnumberBBox (Int.cast : ℤ → ℚ)) [1, 3]
    (fun h => by cases h) (stepOnly_collinearSound false) (tnumberBBox_restrictValueSound _) hv
    (fun h => by cases h)⟩

/-- A box that rules out the value leaves nothing to `tsequence_at_value`. -/
lemma tsequenceAtValue_of_box {value : V} (hbx : bx.RestrictValueSound)
    (hbox : seq.bbox = bx.make seq.instants seq.period.lowerInc seq.period.upperInc)
    (hb : bx.restrictValue seq.bbox value = false) : tsequenceAtValue bt bx seq value = .ok [] := by
  have hne := hbx _ _ _ _ (hbox ▸ hb)
  rcases h : seq.instants with _ | ⟨inst, _ | ⟨inst2, rest⟩⟩
  · simp [tsequenceAtValue, h]
    rfl
  · simp [tsequenceAtValue, h, hne inst (by simp [h])]
    rfl
  · simp [tsequenceAtValue, h, hb]
    rfl

/-- On a single value, both sides of `tsequence_restrict_values` denote what the sides of
`tsequence_restrict_value` denote, under the hypotheses of both, though the `minus` sides
are computed differently: from the periods the `at` side leaves, and segment by
segment. -/
theorem tsequenceRestrictValues_singleton (value : V)
    (hbt : seq.linear = true → LawfulBaseType bt) (hcol : bt.CollinearSound seq.linear)
    (hbx : bx.RestrictValueSound) (hv : seq.Valid bt bx)
    (hcross : seq.linear = true → seq.instants.Chain' fun a b =>
      ∀ r ∈ tlinearseqIntersectionValue bt a b value, a.t < r.2 ∧ r.2 < b.t) :
    ∃ ats mins ats' mins', tsequenceRestrictValues bt bx seq [value] true = .ok ats ∧
      tsequenceRestrictValues bt bx seq [value] false = .ok mins ∧
      tsequenceRestrictValue bt bx seq value true = .ok ats' ∧
      tsequenceRestrictValue bt bx seq value false = .ok mins' ∧
      ∀ t, sequencesValueAt bt ats t = sequencesValueAt bt ats' t ∧
        sequencesValueAt bt mins t = sequencesValueAt bt mins' t := by
  have hwf := hv.wellFormed
  obtain ⟨S, M, hS, hM, hA, hMR⟩ := tsequenceValue_results hwf hbt hbx hv.bbox hcross
  obtain ⟨seqs, mins, hA2, hseqs, hat, hmin, -, hvm⟩ := tsequenceRestrictValues_sides bx hbt hcol
    hbx hv fun hl v hv1 => by rw [List.mem_singleton.mp hv1]; exact hcross hl
  -- the pieces at the value are those of `tsequence_at_value`, sorted
  have hcount : ∀ t, timesCovered seqs t = timesCovered S t := by
    by_cases hb : bx.restrictValue seq.bbox value = true
    · have h1 : temporalBboxRestrictValues bx seq.bbox [value] = [value] := by
        simp [temporalBboxRestrictValues, hb]
      obtain ⟨-, hseqs⟩ := hseqs.resolve_left fun h => List.cons_ne_nil _ _ (h1 ▸ h.1)
      rw [h1, tsequenceAtValues1_singleton, hS] at hseqs
      obtain rfl := Except.ok.inj hseqs
      intro t
      dsimp only
      split_ifs
      · exact (List.perm_insertionSort _ _).countP_eq _
      · rfl
    · have h1 : temporalBboxRestrictValues bx seq.bbox [value] = [] := by
        simp [temporalBboxRestrictValues, hb]
      obtain ⟨-, rfl⟩ := hseqs.resolve_right fun h => h.1 h1
      rw [tsequenceAtValue_of_box bx hbx hv.bbox (Bool.eq_false_iff.mpr hb)] at hS
      obtain rfl := (Except.ok.inj hS).symm
      simp
  have hw : ∀ {rs : List (TSequence V B)}, PiecesOf bt seq.linear seq.instants seq.period rs →
      ∀ r ∈ rs, r.WellFormed ∧ r.linear = seq.linear := fun hP r hr => ⟨(hP r hr).1, (hP r hr).2.1⟩
  obtain ⟨-, -, hvA⟩ := tsequencearrNormalize_denotes bx hcol hbt (hw hA2.pieces)
  obtain ⟨-, -, hvS⟩ := tsequencearrNormalize_denotes bx hcol hbt (hw hA.pieces)
  obtain ⟨-, -, hvM⟩ := tsequencearrNormalize_denotes bx hcol hbt (hw hMR.pieces)
  have hats : ∀ t, sequencesValueAt bt (tsequencearrNormalize bt bx seqs) t =
      sequencesValueAt bt (tsequencearrNormalize bt bx S) t := fun t => by
    rw [hvA, hvS, sequencesValueAt_of_piecesOf hA2.pieces, sequencesValueAt_of_piecesOf hA.pieces,
      hcount]
  refine ⟨_, mins, tsequencearrNormalize bt bx S, tsequencearrNormalize bt bx M, hat, hmin,
    by simp [tsequenceRestrictValue, hS, tsequencesetMake, bind,
      Except.bind, pure, Except.pure], by simp [tsequenceRestrictValue, hM, tsequencesetMake, bind,
      Except.bind, pure, Except.pure], fun t => ⟨hats t, ?_⟩⟩
  rw [hvm t, hats t, hvS, hvM, sequencesValueAt_of_piecesOf hA.pieces,
    sequencesValueAt_of_piecesOf hMR.pieces]
  have hpart := hMR.partition t
  by_cases hc : containsPeriodTimestamp seq.period t = true
  · rw [if_pos hc] at hpart
    obtain ⟨x, hx⟩ := Option.isSome_iff_exists.mp
      ((TSequence.valueAt_isSome hwf t : (seq.valueAt bt t).isSome = _).trans hc)
    rcases Nat.eq_zero_or_pos (timesCovered S t) with h0 | h0
    · simp [h0, show 0 < timesCovered M t by omega]
    · simp [h0, hx, show ¬0 < timesCovered M t by omega]
  · simp [TSequence.valueAt_of_not_contains (Bool.eq_false_iff.mpr hc)]

/-- The valid linear float sequence `[0@0, 4@4]` crosses the value 2 strictly inside its
segment, at the timestamp 2. -/
theorem tsequenceRestrictValues_singleton_line :
    (⟨[⟨0, 0⟩, ⟨4, 4⟩], ⟨0, 4, true, true⟩, true, ⟨0, 4, 0, 4⟩⟩ : TSequence ℚ TBox).Valid
      (tfloat 0) (tnumberBBox id) ∧
    (true = true → [(⟨0, 0⟩ : TInstant ℚ), ⟨4, 4⟩].Chain' fun a b =>
      ∀ r ∈ tlinearseqIntersectionValue (tfloat 0) a b 2, a.t < r.2 ∧ r.2 < b.t) ∧
    ∃ ats mins ats' mins', tsequenceRestrictValues (tfloat 0) (tnumberBBox id)
        ⟨[⟨0, 0⟩, ⟨4, 4⟩], ⟨0, 4, true, true⟩, true, ⟨0, 4, 0, 4⟩⟩ [2] true = .ok ats ∧
      tsequenceRestrictValues (tfloat 0) (tnumberBBox id)
        ⟨[⟨0, 0⟩, ⟨4, 4⟩], ⟨0, 4, true, true⟩, true, ⟨0, 4, 0, 4⟩⟩ [2] false = .ok mins ∧
      tsequenceRestrictValue (tfloat 0) (tnumberBBox id)
        ⟨[⟨0, 0⟩, ⟨4, 4⟩], ⟨0, 4, true, true⟩, true, ⟨0, 4, 0, 4⟩⟩ 2 true = .ok ats' ∧
      tsequenceRestrictValue (tfloat 0) (tnumberBBox id)
        ⟨[⟨0, 0⟩, ⟨4, 4⟩], ⟨0, 4, true, true⟩, true, ⟨0, 4, 0, 4⟩⟩ 2 false = .ok mins' ∧
      ∀ t, sequencesValueAt (tfloat 0) ats t = sequencesValueAt (tfloat 0) ats' t ∧
        sequencesValueAt (tfloat 0) mins t = sequencesValueAt (tfloat 0) mins' t := by
  have hv : (⟨[⟨0, 0⟩, ⟨4, 4⟩], ⟨0, 4, true, true⟩, true, ⟨0, 4, 0, 4⟩⟩ :
      TSequence ℚ TBox).Valid (tfloat 0) (tnumberBBox id) := by
    simp [TSequence.valid_iff, lastTwo?, periodOf, lastT, tinstantarrNormalize,
      tinstantarrNormalizeLoop, normalizeRedundant, tnumberBBox, tboxExpand, datumCollinear, tfloat,
      floatCollinear]
  have hcross : true = true → [(⟨0, 0⟩ : TInstant ℚ), ⟨4, 4⟩].Chain' fun a b =>
      ∀ r ∈ tlinearseqIntersectionValue (tfloat 0) a b 2, a.t < r.2 ∧ r.2 < b.t := fun _ => by
    simp [tlinearseqIntersectionValue, tfloat, tnumberseqIntersectionValue,
      tnumberseqIntersectionFraction, longOfDouble]
    norm_num
  exact ⟨hv, hcross, tsequenceRestrictValues_singleton (tnumberBBox id) 2 (fun _ => tfloat_lawful 0)
    tfloat_collinearSound (tnumberBBox_restrictValueSound id) hv hcross⟩

end Restrict

end TemporalSequence
