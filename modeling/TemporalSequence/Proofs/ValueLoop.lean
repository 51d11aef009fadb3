import TemporalSequence.Proofs.ValueSegment

/-!
# The loops of the restrictions to a value

The segment loop of `tsequence_at_value` and the linear segment loop of
`tsequence_minus_value` join the results of consecutive segments; the step loop of
`tsequence_minus_value` walks the instants instead, cutting the array at each instant
taking the value. Each loop is shown, by induction on the instants it has still to
read, to succeed with pieces of the array that cover each timestamp of its period as
the results describe.
-/

namespace TemporalSequence

variable {V B : Type} [DecidableEq V]

/-! ## The segment loops -/

section Loop

variable {bt : BaseType V} {linear : Bool} {value : V} {inst1 inst2 : TInstant V}
  {rest : List (TInstant V)} {lowerInc upperInc : Bool}

variable (hs : (inst1 :: inst2 :: rest).Pairwise fun a b => a.t < b.t)
include hs

lemma piecesOf_cons_cons {seqs1 seqs2 : List (TSequence V B)}
    (h1 : PiecesOf bt linear [inst1, inst2] ⟨inst1.t, inst2.t, lowerInc, false⟩ seqs1)
    (h2 : PiecesOf bt linear (inst2 :: rest) (periodOf (inst2 :: rest) true upperInc) seqs2) :
    PiecesOf bt linear (inst1 :: inst2 :: rest) (periodOf (inst1 :: inst2 :: rest) lowerInc upperInc)
      (seqs1 ++ seqs2) := by
  refine piecesOf_append.mpr ⟨h1.mono fun t ht => ?_, h2.mono fun t ht => ?_⟩
  · have hlt : t < inst2.t := by
      have := containsPeriodTimestamp_mk.mp ht
      simp only [Bool.false_eq_true, false_and, or_false] at this
      exact this.2
    rw [containsPeriodTimestamp_periodOf_of_lt_second hs hlt]
    exact ⟨ht, (instantsValueAt_of_lt_second hlt).symm⟩
  · have hle : inst2.t ≤ t := by simpa [periodOf] using (bounds_of_containsPeriodTimestamp ht).1
    rw [containsPeriodTimestamp_periodOf_of_second_le hs hle]
    exact ⟨ht, (instantsValueAt_cons_of_le hle).symm⟩

/-- What `tsequence_at_value1` returns for the first segment followed by what the
loop returns for the rest of the array is what the loop returns for the array. -/
lemma AtValueResult.append {seqs1 seqs2 : List (TSequence V B)}
    (h1 : AtValueResult bt linear value [inst1, inst2] ⟨inst1.t, inst2.t, lowerInc, false⟩ seqs1)
    (h2 : AtValueResult bt linear value (inst2 :: rest) (periodOf (inst2 :: rest) true upperInc)
      seqs2) :
    AtValueResult bt linear value (inst1 :: inst2 :: rest)
      (periodOf (inst1 :: inst2 :: rest) lowerInc upperInc) (seqs1 ++ seqs2) := by
  have h12 : inst1.t < inst2.t := List.rel_of_pairwise_cons hs (List.mem_cons_self _ _)
  have hseg : ∀ t, containsPeriodTimestamp ⟨inst1.t, inst2.t, lowerInc, false⟩ t = true →
      t < inst2.t := fun t ht => by
    have := containsPeriodTimestamp_mk.mp ht
    simp only [Bool.false_eq_true, false_and, or_false] at this
    exact this.2
  refine ⟨piecesOf_cons_cons hs h1.pieces h2.pieces, fun hl t => ?_, fun inst hinst ht => ?_,
    List.chain'_cons.mpr ⟨fun hv1 hv2 t ht1 ht2 ht => ?_, ?_⟩⟩
  · rw [timesCovered_append, h1.step hl, h2.step hl]
    by_cases ht : t < inst2.t
    · have hv : instantsValueAt bt false (inst1 :: inst2 :: rest) t =
          instantsValueAt bt false [inst1, inst2] t := instantsValueAt_of_lt_second ht
      rw [containsPeriodTimestamp_periodOf_of_lt_second hs ht, hv]
      have : containsPeriodTimestamp (periodOf (inst2 :: rest) true upperInc) t = false :=
        containsPeriodTimestamp_eq_false_of_lt_lower ht
      simp [this]
    · have hv : instantsValueAt bt false (inst1 :: inst2 :: rest) t =
          instantsValueAt bt false (inst2 :: rest) t := instantsValueAt_cons_of_le (not_lt.mp ht)
      rw [containsPeriodTimestamp_periodOf_of_second_le hs (not_lt.mp ht), hv]
      have : containsPeriodTimestamp ⟨inst1.t, inst2.t, lowerInc, false⟩ t = false := by
        cases hc : containsPeriodTimestamp ⟨inst1.t, inst2.t, lowerInc, false⟩ t
        · rfl
        · exact absurd (hseg t hc) ht
      simp [this]
  · rw [timesCovered_append]
    rcases List.mem_cons.mp hinst with rfl | hinst
    · rw [containsPeriodTimestamp_periodOf_of_lt_second hs h12] at ht
      rw [h1.samples _ (List.mem_cons_self _ _) ht,
        h2.pieces.timesCovered_eq_zero (containsPeriodTimestamp_eq_false_of_lt_lower h12), add_zero]
    · have hle := head_le_of_mem hs.of_cons hinst
      rw [containsPeriodTimestamp_periodOf_of_second_le hs hle] at ht
      rw [h2.samples _ hinst ht, h1.pieces.timesCovered_eq_zero (by
          cases hc : containsPeriodTimestamp ⟨inst1.t, inst2.t, lowerInc, false⟩ inst.t
          · rfl
          · exact absurd (hseg _ hc) (not_lt.mpr hle)), zero_add]
  · rw [timesCovered_append]
    rcases (le_of_lt_or_eq (lt_or_eq_of_le ht2)).lt_or_eq with ht2 | rfl
    · rw [containsPeriodTimestamp_periodOf_of_lt_second hs ht2] at ht
      have := List.chain'_pair.mp h1.const hv1 hv2 t ht1 ht2.le ht
      omega
    · rw [containsPeriodTimestamp_periodOf_of_second_le hs le_rfl] at ht
      rw [h2.samples _ (List.mem_cons_self _ _) ht, if_pos hv2]
      omega
  · refine (List.Chain'.iff_mem.mp h2.const).imp fun a b ⟨ha, _, hR⟩ hva hvb t hat htb ht => ?_
    have hle := (head_le_of_mem hs.of_cons ha).trans hat
    rw [containsPeriodTimestamp_periodOf_of_second_le hs hle] at ht
    rw [timesCovered_append]
    have := hR hva hvb t hat htb ht
    omega

/-- What `tlinearseq_minus_value1` returns for the first segment followed by what the
loop returns for the rest of the array is what the loop returns for the array. -/
lemma MinusValueResult.append (hrest : rest ≠ []) {ats1 ats2 seqs1 seqs2 : List (TSequence V B)}
    (h1 : MinusValueResult bt linear [inst1, inst2] ⟨inst1.t, inst2.t, lowerInc, false⟩ ats1 seqs1)
    (h2 : MinusValueResult bt linear (inst2 :: rest) (periodOf (inst2 :: rest) true upperInc) ats2
      seqs2) :
    MinusValueResult bt linear (inst1 :: inst2 :: rest)
      (periodOf (inst1 :: inst2 :: rest) lowerInc upperInc) (ats1 ++ ats2) (seqs1 ++ seqs2) where
  pieces := piecesOf_cons_cons hs h1.pieces h2.pieces
  partition t := by
    rw [timesCovered_append, timesCovered_append, periodOf_split hrest hs, ← h1.partition t,
      ← h2.partition t]
    omega

end Loop

/-- The segment loop of `tsequence_at_value` succeeds on an array of at least two
instants in time order, with its restriction to `value`. -/
theorem tsequenceAtValueLoop_spec {bt : BaseType V} (bx : BBoxOps V B) (linear upperInc : Bool)
    {value : V} {inst1 : TInstant V} {rest : List (TInstant V)}
    (hrest : rest ≠ []) (hs : (inst1 :: rest).Pairwise fun a b => a.t < b.t)
    (hcross : linear = true → (inst1 :: rest).Chain' fun a b =>
      ∀ r ∈ tlinearseqIntersectionValue bt a b value, a.t < r.2 ∧ r.2 < b.t)
    (lowerInc : Bool) :
    ∃ seqs, tsequenceAtValueLoop bt bx linear upperInc value lowerInc inst1 rest = .ok seqs ∧
      AtValueResult bt linear value (inst1 :: rest) (periodOf (inst1 :: rest) lowerInc upperInc)
        seqs := by
  induction rest generalizing inst1 lowerInc with
  | nil => exact absurd rfl hrest
  | cons inst2 rest ih =>
    have h12 : inst1.t < inst2.t := List.rel_of_pairwise_cons hs (List.mem_cons_self _ _)
    obtain ⟨res, hres, hA⟩ := tsequenceAtValue1_spec h12 bx lowerInc
      (if rest = [] then upperInc else false) fun hl => (List.chain'_cons.mp (hcross hl)).1
    by_cases hrest' : rest = []
    · subst hrest'
      rw [if_pos rfl] at hres hA
      refine ⟨res.toList, ?_, by simpa using hA⟩
      simp [tsequenceAtValueLoop, hres]
    · obtain ⟨seqs, hseqs, hB⟩ := ih hrest' hs.of_cons
        (fun hl => (List.chain'_cons'.mp (hcross hl)).2) true
      refine ⟨res.toList ++ seqs, ?_, ?_⟩
      · simp only [tsequenceAtValueLoop, hres, hseqs]
        rfl
      · rw [if_neg hrest'] at hA
        exact AtValueResult.append hs hA hB

/-- The segment loop of `tsequence_minus_value` for linear interpolation succeeds on an
array of at least two instants in time order, with pieces that cover, with what the
segment loop of `tsequence_at_value` returns, each timestamp of the period once. -/
theorem tlinearseqMinusValueLoop_spec {bt : BaseType V} (bx : BBoxOps V B) (upperInc : Bool)
    {value : V} (hbt : LawfulBaseType bt) {inst1 : TInstant V} {rest : List (TInstant V)}
    (hrest : rest ≠ []) (hs : (inst1 :: rest).Pairwise fun a b => a.t < b.t)
    (hcross : (inst1 :: rest).Chain' fun a b =>
      ∀ r ∈ tlinearseqIntersectionValue bt a b value, a.t < r.2 ∧ r.2 < b.t)
    (lowerInc : Bool) {ats : List (TSequence V B)}
    (hats : tsequenceAtValueLoop bt bx true upperInc value lowerInc inst1 rest = .ok ats) :
    ∃ seqs, tlinearseqMinusValueLoop bt bx upperInc value lowerInc inst1 rest = .ok seqs ∧
      MinusValueResult bt true (inst1 :: rest) (periodOf (inst1 :: rest) lowerInc upperInc) ats
        seqs := by
  induction rest generalizing inst1 lowerInc ats with
  | nil => exact absurd rfl hrest
  | cons inst2 rest ih =>
    have h12 : inst1.t < inst2.t := List.rel_of_pairwise_cons hs (List.mem_cons_self _ _)
    have hcross1 := (List.chain'_cons.mp hcross).1
    obtain ⟨res, hres, -⟩ := tsequenceAtValue1_spec h12 bx lowerInc
      (if rest = [] then upperInc else false) fun _ => hcross1
    obtain ⟨seqs1, hseqs1, hM⟩ := tlinearseqMinusValue1_spec h12 hbt hcross1 hres
    by_cases hrest' : rest = []
    · subst hrest'
      rw [if_pos rfl] at hres hseqs1 hM
      obtain rfl : ats = res.toList :=
        Except.ok.inj (hats.symm.trans (by simp [tsequenceAtValueLoop, hres]))
      refine ⟨seqs1, ?_, by simpa using hM⟩
      simp [tlinearseqMinusValueLoop, hseqs1]
    · obtain ⟨ats', hats', -⟩ := tsequenceAtValueLoop_spec bx true upperInc hrest' hs.of_cons
        (fun _ => (List.chain'_cons'.mp hcross).2) true
      obtain rfl : ats = res.toList ++ ats' := Except.ok.inj (hats.symm.trans (by
        simp only [tsequenceAtValueLoop, hres, hats']
        rfl))
      obtain ⟨seqs, hseqs, hB⟩ := ih hrest' hs.of_cons (List.chain'_cons'.mp hcross).2 true hats'
      refine ⟨seqs1 ++ seqs, ?_, ?_⟩
      · simp only [tlinearseqMinusValueLoop, hseqs1, hseqs]
        rfl
      · rw [if_neg hrest'] at hM
        exact MinusValueResult.append hs hrest' hM hB

/-! ## The step loop of `tsequence_minus_value` -/

/-- What the step loop of `tsequence_minus_value` returns for the instant array
`instants` in its period `p`: pieces of the array that cover each timestamp of `p`
where the array does not take `value` once, and no other timestamp. -/
structure StepMinusResult (bt : BaseType V) (value : V) (instants : List (TInstant V))
    (p : Period) (seqs : List (TSequence V B)) : Prop where
  pieces : PiecesOf bt false instants p seqs
  partition : ∀ t, (if containsPeriodTimestamp p t = true ∧
      instantsValueAt bt false instants t = some value then 1 else 0) + timesCovered seqs t =
    if containsPeriodTimestamp p t = true then 1 else 0

lemma StepMinusResult.minusValueResult {bt : BaseType V} {value : V}
    {instants : List (TInstant V)} {p : Period} {ats seqs : List (TSequence V B)}
    (hA : AtValueResult bt false value instants p ats) (hM : StepMinusResult bt value instants p seqs) :
    MinusValueResult bt false instants p ats seqs :=
  ⟨hM.pieces, fun t => by rw [hA.step rfl t]; exact hM.partition t⟩

section StepMinus

variable {bt : BaseType V} {value : V} {upperInc : Bool}

/-- The end condition of a step sequence with an exclusive upper bound, on the last
instant of `instants` unless it takes `value`: it repeats the value before it. -/
def StepEnd (value : V) (instants : List (TInstant V)) : Prop :=
  ∀ last, instants.getLast? = some last → last.value ≠ value →
    ∃ prev, lastTwo? instants = some (prev, last) ∧ prev.value = last.value

omit [DecidableEq V] in
lemma StepEnd.after {pre rest : List (TInstant V)} {inst : TInstant V} (hv : inst.value = value)
    (h : StepEnd value (pre ++ inst :: rest)) : StepEnd value rest := by
  intro last hl hlv
  have hl' : (pre ++ inst :: rest).getLast? = some last := by
    rw [List.getLast?_append, List.getLast?_cons, hl]
    rfl
  obtain ⟨prev, htwo, hpv⟩ := h last hl' hlv
  match rest, hl with
  | [b], hl =>
    obtain rfl : b = last := by simpa using hl
    rw [show pre ++ [inst, b] = (pre ++ [inst]) ++ [b] by simp, lastTwo?_append_singleton] at htwo
    simp only [List.getLast?_append, List.getLast?_singleton, Option.map_some'] at htwo
    obtain rfl : inst = prev := by simpa using htwo
    exact absurd (hpv ▸ hv) hlv
  | b1 :: b2 :: r, _ =>
    rw [lastTwo?_append_of_two_le _ (by simp), lastTwo?_cons_of_two_le _ (by simp)] at htwo
    exact ⟨prev, htwo, hpv⟩

/-- After an instant `inst` taking `value`, what the loop returns for the instants that
follow (nothing when none follows) are pieces of the whole array that cover nothing
before `inst`, and from `inst` on cover, with the timestamps where the array takes
`value`, each timestamp of its period once. -/
lemma stepMinus_after {pre rest : List (TInstant V)} {inst : TInstant V} (lowerInc : Bool)
    {seqs : List (TSequence V B)} (hs : (pre ++ inst :: rest).Pairwise fun a b => a.t < b.t)
    (hv : inst.value = value)
    (h : rest = [] ∧ seqs = [] ∨
      rest ≠ [] ∧ StepMinusResult bt value rest (periodOf rest true upperInc) seqs) :
    PiecesOf bt false (pre ++ inst :: rest) (periodOf (pre ++ inst :: rest) lowerInc upperInc)
        seqs ∧
      (∀ t, t < inst.t → timesCovered seqs t = 0) ∧
      ∀ t, inst.t ≤ t →
        (if containsPeriodTimestamp (periodOf (pre ++ inst :: rest) lowerInc upperInc) t = true ∧
          instantsValueAt bt false (pre ++ inst :: rest) t = some value then 1 else 0) +
            timesCovered seqs t =
          if containsPeriodTimestamp (periodOf (pre ++ inst :: rest) lowerInc upperInc) t = true
          then 1 else 0 := by
  rcases h with ⟨rfl, rfl⟩ | ⟨hne, hR⟩
  · refine ⟨piecesOf_nil, fun _ _ => rfl, fun t ht => ?_⟩
    rw [instantsValueAt_append_cons hs ht, timesCovered_nil, add_zero]
    by_cases hc : containsPeriodTimestamp (periodOf (pre ++ [inst]) lowerInc upperInc) t = true
    · have hup : t ≤ lastT (pre ++ [inst]) := (bounds_of_containsPeriodTimestamp hc).2
      have hti : t = inst.t := le_antisymm (by simpa [lastT] using hup) ht
      simp [hc, instantsValueAt, hti, hv]
    · simp [hc]
  · obtain ⟨inst2, rest, rfl⟩ := List.exists_cons_of_ne_nil hne
    have hget : (pre ++ inst :: inst2 :: rest)[pre.length + 1]? = some inst2 := by
      rw [List.getElem?_append_right (by omega), Nat.add_sub_cancel_left]
      simp
    have hdrop : (pre ++ inst :: inst2 :: rest).drop (pre.length + 1) = inst2 :: rest := by
      rw [List.drop_append_eq_append_drop]
      simp
    have h12 : inst.t < inst2.t :=
      t_lt_of_getElem? hs (getElem?_append_length pre _ inst) hget (Nat.lt_succ_self _)
    have hP : ∀ t, inst2.t ≤ t →
        containsPeriodTimestamp (periodOf (pre ++ inst :: inst2 :: rest) lowerInc upperInc) t =
          containsPeriodTimestamp (periodOf (inst2 :: rest) true upperInc) t := fun t ht => by
      rw [containsPeriodTimestamp_periodOf_drop hs (Nat.succ_pos _) hget ht, hdrop]
    have hval : ∀ t, inst2.t ≤ t → instantsValueAt bt false (pre ++ inst :: inst2 :: rest) t =
        instantsValueAt bt false (inst2 :: rest) t := fun t ht => by
      rw [instantsValueAt_drop hs hget ht, hdrop]
    have hzero : ∀ t, t < inst2.t → timesCovered seqs t = 0 := fun t ht =>
      hR.pieces.timesCovered_eq_zero (containsPeriodTimestamp_eq_false_of_lt_lower ht)
    refine ⟨hR.pieces.mono fun t ht => ?_, fun t ht => hzero t (ht.trans h12), fun t ht => ?_⟩
    · have ht2 : inst2.t ≤ t := by
        simpa [periodOf] using (bounds_of_containsPeriodTimestamp ht).1
      exact ⟨(hP t ht2).trans ht, (hval t ht2).symm⟩
    · by_cases ht2 : t < inst2.t
      · have hvt : instantsValueAt bt false (pre ++ inst :: inst2 :: rest) t = some value := by
          rw [instantsValueAt_append_cons hs ht, instantsValueAt_cons_cons, if_pos ht2, if_pos ht,
            tsequenceValueAtTimestamp1_step ht2, hv]
        simp [hzero t ht2, hvt]
      · rw [hP t (not_lt.mp ht2), hval t (not_lt.mp ht2)]
        exact hR.partition t

/-- The instants `pre` kept before an instant `inst`, none of which takes
`value`, closed at `inst` by an exclusive instant repeating the last of them, make a
piece of the array that covers before `inst`, with the timestamps where the array takes
`value`, each timestamp of its period once, and nothing from `inst` on. -/
lemma tsequenceMake_group (bx : BBoxOps V B) {pre rest : List (TInstant V)}
    {inst last : TInstant V} (lowerInc upperInc : Bool)
    (hs : (pre ++ inst :: rest).Pairwise fun a b => a.t < b.t) (hpre : ∀ a ∈ pre, a.value ≠ value)
    (hlast : pre.getLast? = some last) :
    ∃ seq, tsequenceMake bt bx (pre ++ [⟨last.value, inst.t⟩]) lowerInc false false false =
        .ok seq ∧
      PiecesOf bt false (pre ++ inst :: rest) (periodOf (pre ++ inst :: rest) lowerInc upperInc)
        [seq] ∧
      (∀ t, t < inst.t →
        (if containsPeriodTimestamp (periodOf (pre ++ inst :: rest) lowerInc upperInc) t = true ∧
          instantsValueAt bt false (pre ++ inst :: rest) t = some value then 1 else 0) +
            timesCovered [seq] t =
          if containsPeriodTimestamp (periodOf (pre ++ inst :: rest) lowerInc upperInc) t = true
          then 1 else 0) ∧
      ∀ t, inst.t ≤ t → timesCovered [seq] t = 0 := by
  have hpre_ne : pre ≠ [] := by
    rintro rfl
    cases hlast
  have hlt : ∀ a ∈ pre, a.t < inst.t := fun a ha =>
    (List.pairwise_append.mp hs).2.2 a ha inst (List.mem_cons_self _ _)
  set G := pre ++ [(⟨last.value, inst.t⟩ : TInstant V)] with hG
  have hsG : G.Pairwise fun a b => a.t < b.t :=
    List.pairwise_append.mpr ⟨(List.pairwise_append.mp hs).1, List.pairwise_singleton _ _,
      fun a ha b hb => (List.mem_singleton.mp hb) ▸ hlt a ha⟩
  have hcheck : tsequenceMakeCheck G lowerInc false false = .ok () := by
    refine tsequenceMakeCheck_eq_ok.mpr ⟨by simp [hG], chain'_t_iff_pairwise.mpr hsG, ?_, ?_⟩
    · have := List.length_pos.mpr hpre_ne
      simp only [hG, List.length_append, List.length_singleton]
      omega
    · simp [hG, lastTwo?_append_singleton, hlast]
  have hmake : tsequenceMake bt bx G lowerInc false false false =
      .ok ⟨G, periodOf G lowerInc false, false, bx.make G lowerInc false⟩ :=
    tsequenceMake_eq_ok.mpr ⟨hcheck, by simp⟩
  have hfilter : (pre ++ inst :: rest).filter (fun a => a.t < inst.t) = pre := by
    rw [List.filter_append, List.filter_eq_self.mpr fun a ha => by simpa using hlt a ha,
      List.filter_eq_nil_iff.mpr fun a ha => by
        simpa using head_le_of_mem (List.pairwise_append.mp hs).2.1 ha, List.append_nil]
  have hb : instantsValueAt bt false (pre ++ inst :: rest) inst.t = some inst.value := by
    rw [instantsValueAt_append_cons hs le_rfl,
      instantsValueAt_head (List.pairwise_append.mp hs).2.1]
  have hvalG : ∀ t, t < inst.t →
      instantsValueAt bt false G t = instantsValueAt bt false (pre ++ inst :: rest) t := by
    intro t ht
    have := instantsValueAt_cutBack (w := last.value) (fun h => by cases h) hs hb
      (fun h => by cases h) ht
    rwa [hfilter] at this
  have hup : ∀ t, containsPeriodTimestamp (periodOf G lowerInc false) t = true → t < inst.t := by
    intro t ht
    have := (containsPeriodTimestamp_iff.mp ht).2
    simpa [periodOf, hG, lastT] using this
  refine ⟨_, hmake, piecesOf_tsequenceMake hmake fun t ht => ?_, fun t ht => ?_, fun t ht => ?_⟩
  · rw [containsPeriodTimestamp_periodOf_of_lt hs hpre_ne (hup t ht)]
    exact ⟨ht, hvalG t (hup t ht)⟩
  · have hnot : instantsValueAt bt false (pre ++ inst :: rest) t ≠ some value := fun h => by
      rw [← hvalG t ht] at h
      obtain ⟨a, ha, hav⟩ := instantsValueAt_step_mem h
      rcases List.mem_append.mp ha with ha | ha
      · exact hpre a ha hav
      · rw [List.mem_singleton.mp ha] at hav
        exact hpre last (List.mem_of_getLast?_eq_some hlast) hav
    rw [containsPeriodTimestamp_periodOf_of_lt (w := last.value) hs hpre_ne ht]
    simp [hnot]
  · have : containsPeriodTimestamp (periodOf G lowerInc false) t = false := by
      cases h : containsPeriodTimestamp (periodOf G lowerInc false) t
      · rfl
      · exact absurd (hup t h) (not_lt.mpr ht)
    simp [this]

/-- At the end of the array the loop makes one sequence of the instants it kept, none of
which takes `value`: it covers each timestamp of their period. -/
lemma tstepseqMinusValueLoop_nil (bx : BBoxOps V B) {instants : List (TInstant V)}
    {lowerInc : Bool} (hne : instants ≠ []) (hs : instants.Pairwise fun a b => a.t < b.t)
    (hval : ∀ a ∈ instants, a.value ≠ value) (hE : upperInc = false → StepEnd value instants)
    (hS : ∀ inst, instants = [inst] → lowerInc = true) :
    ∃ seqs, tstepseqMinusValueLoop bt bx upperInc value instants lowerInc [] = .ok seqs ∧
      StepMinusResult bt value instants (periodOf instants lowerInc upperInc) seqs := by
  obtain ⟨last, hlast⟩ := Option.isSome_iff_exists.mp (List.getLast?_isSome.mpr hne)
  have hend : upperInc = false →
      ∃ prev, lastTwo? instants = some (prev, last) ∧ prev.value = last.value := fun hu =>
    hE hu last hlast (hval last (List.mem_of_getLast?_eq_some hlast))
  have hcheck : tsequenceMakeCheck instants lowerInc upperInc false = .ok () := by
    refine tsequenceMakeCheck_eq_ok.mpr ⟨hne, chain'_t_iff_pairwise.mpr hs, ?_, ?_⟩
    · rintro ⟨hlen, hinc⟩
      obtain ⟨inst, rfl⟩ := List.length_eq_one.mp hlen
      cases upperInc
      · obtain ⟨prev, htwo, -⟩ := hend rfl
        cases htwo
      · simp [hS inst rfl] at hinc
    · cases upperInc
      · obtain ⟨prev, htwo, hpv⟩ := hend rfl
        simp [htwo, hpv]
      · simp
  have hmake : tsequenceMake bt bx instants lowerInc upperInc false false =
      .ok ⟨instants, periodOf instants lowerInc upperInc, false, bx.make instants lowerInc upperInc⟩ :=
    tsequenceMake_eq_ok.mpr ⟨hcheck, by simp⟩
  refine ⟨_, by rw [tstepseqMinusValueLoop, if_neg hne, hmake]; rfl,
    piecesOf_tsequenceMake hmake fun t ht => ⟨ht, rfl⟩, fun t => ?_⟩
  have hnot : instantsValueAt bt false instants t ≠ some value := fun h => by
    obtain ⟨a, ha, hav⟩ := instantsValueAt_step_mem h
    exact hval a ha hav
  simp [hnot]

end StepMinus

/-- The step loop of `tsequence_minus_value`, from the instants `instants` it kept, none
of which takes `value`, over the instants `rest` still to read, succeeds with the
pieces of the array `instants ++ rest` that cover each timestamp of its period where
it does not take `value`. -/
theorem tstepseqMinusValueLoop_spec {bt : BaseType V} (bx : BBoxOps V B) (upperInc : Bool)
    (value : V) :
    ∀ (rest instants : List (TInstant V)) (lowerInc : Bool), instants ++ rest ≠ [] →
      (instants ++ rest).Pairwise (fun a b => a.t < b.t) → (∀ a ∈ instants, a.value ≠ value) →
      (upperInc = false → StepEnd value (instants ++ rest)) →
      (∀ inst, instants ++ rest = [inst] → lowerInc = true) →
      ∃ seqs, tstepseqMinusValueLoop bt bx upperInc value instants lowerInc rest = .ok seqs ∧
        StepMinusResult bt value (instants ++ rest) (periodOf (instants ++ rest) lowerInc upperInc)
          seqs
  | [], instants, lowerInc, hne, hs, hval, hE, hS => by
    simp only [List.append_nil] at hne hs hE hS ⊢
    exact tstepseqMinusValueLoop_nil bx hne hs hval hE hS
  | inst :: rest, instants, lowerInc, hne, hs, hval, hE, hS => by
    by_cases hv : inst.value = value
    · have hafter : ∃ seqs, tstepseqMinusValueLoop bt bx upperInc value [] true rest = .ok seqs ∧
          (rest = [] ∧ seqs = [] ∨
            rest ≠ [] ∧ StepMinusResult bt value rest (periodOf rest true upperInc) seqs) := by
        by_cases hr : rest = []
        · subst hr
          exact ⟨[], rfl, Or.inl ⟨rfl, rfl⟩⟩
        · obtain ⟨seqs, hloop, hR⟩ := tstepseqMinusValueLoop_spec bx upperInc value rest [] true
            (by simpa using hr) (by simpa using (List.pairwise_append.mp hs).2.1.of_cons)
            (by simp) (fun hu => by simpa using (hE hu).after hv) (fun _ _ => rfl)
          exact ⟨seqs, hloop, Or.inr ⟨hr, by simpa using hR⟩⟩
      obtain ⟨seqs, hloop, hR⟩ := hafter
      obtain ⟨hpieces, hbefore, hfrom⟩ := stepMinus_after lowerInc hs hv hR
      cases hlast : instants.getLast? with
      | none =>
        obtain rfl : instants = [] := List.getLast?_eq_none_iff.mp hlast
        refine ⟨seqs, by rw [tstepseqMinusValueLoop, if_pos hv]; exact hloop, hpieces, fun t => ?_⟩
        by_cases ht : inst.t ≤ t
        · exact hfrom t ht
        · have hc : containsPeriodTimestamp (periodOf ([] ++ inst :: rest) lowerInc upperInc) t =
              false := containsPeriodTimestamp_eq_false_of_lt_lower (by simpa [periodOf] using ht)
          rw [hc, hbefore t (not_le.mp ht)]
          simp
      | some last =>
        obtain ⟨g, hmake, hgp, hgbefore, hgafter⟩ :=
          tsequenceMake_group bx lowerInc upperInc hs hval hlast
        refine ⟨g :: seqs, ?_, ⟨piecesOf_append.mpr ⟨hgp, hpieces⟩, fun t => ?_⟩⟩
        · rw [tstepseqMinusValueLoop, if_pos hv, hlast]
          simp [hmake, hloop, bind, Except.bind, pure, Except.pure]
        · rw [show g :: seqs = [g] ++ seqs from rfl, timesCovered_append]
          by_cases ht : inst.t ≤ t
          · rw [hgafter t ht, zero_add]
            exact hfrom t ht
          · rw [hbefore t (not_le.mp ht), add_zero]
            exact hgbefore t (not_le.mp ht)
    · obtain ⟨seqs, hloop, hR⟩ := tstepseqMinusValueLoop_spec bx upperInc value rest
        (instants ++ [inst]) lowerInc (by simp) (by simpa using hs)
        (fun a ha => (List.mem_append.mp ha).elim (hval a) fun h => (List.mem_singleton.mp h) ▸ hv)
        (by simpa using hE) (by simpa using hS)
      refine ⟨seqs, by rw [tstepseqMinusValueLoop, if_neg hv]; exact hloop, by simpa using hR⟩

end TemporalSequence
