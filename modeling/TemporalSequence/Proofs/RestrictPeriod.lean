import TemporalSequence.Proofs.Search
import TemporalSequence.Proofs.Period

/-!
# Restriction to a period

`tsequence_at_period` cuts a sequence at the bounds of its intersection with the
period: it evaluates the segment found for the lower bound, keeps the instants
strictly inside, and evaluates the segment the loop stops at for the upper bound.
On a well-formed sequence, the result denotes the sequence restricted to the period.
-/

namespace TemporalSequence

variable {V B : Type} [DecidableEq V]

omit [DecidableEq V] in
/-- The loop of `tsequence_at_period` keeps the instants strictly between the bounds
and stops at a segment containing the upper bound. -/
lemma tsequenceAtPeriodLoop_spec {inter : Period} {inst1 inst2 : TInstant V}
    {rest : List (TInstant V)} (hs : (inst1 :: inst2 :: rest).Pairwise fun i j => i.t < j.t)
    (ha : inter.lower < inst2.t) (hb1 : inst1.t ≤ inter.upper)
    (hb : inter.upper ≤ lastT (inst2 :: rest)) :
    (tsequenceAtPeriodLoop inter inst1 inst2 rest).1 =
        (inst2 :: rest).filter (fun inst => inter.lower < inst.t ∧ inst.t < inter.upper) ∧
      ∃ m : ℕ, (inst1 :: inst2 :: rest)[m]? = some (tsequenceAtPeriodLoop inter inst1 inst2 rest).2.1 ∧
        (inst1 :: inst2 :: rest)[m + 1]? = some (tsequenceAtPeriodLoop inter inst1 inst2 rest).2.2 ∧
        (tsequenceAtPeriodLoop inter inst1 inst2 rest).2.1.t ≤ inter.upper ∧
        inter.upper ≤ (tsequenceAtPeriodLoop inter inst1 inst2 rest).2.2.t := by
  induction rest generalizing inst1 inst2 with
  | nil =>
    simp only [lastT_singleton] at hb
    exact ⟨by simp [tsequenceAtPeriodLoop, not_lt.mpr hb], 0, rfl, rfl, hb1, hb⟩
  | cons inst3 rest ih =>
    have h23 : inst2.t < inst3.t := List.rel_of_pairwise_cons hs.of_cons (List.mem_cons_self _ _)
    by_cases hstop : inter.upper ≤ inst2.t
    · have hnone : (inst2 :: inst3 :: rest).filter
          (fun inst => inter.lower < inst.t ∧ inst.t < inter.upper) = [] :=
        List.filter_eq_nil_iff.mpr fun x hx => by
          rcases List.mem_cons.mp hx with rfl | hx
          · simpa using fun _ => hstop
          · simpa using fun _ => hstop.trans (List.rel_of_pairwise_cons hs.of_cons hx).le
      have hloop : tsequenceAtPeriodLoop inter inst1 inst2 (inst3 :: rest) = ([], inst1, inst2) := by
        simp [tsequenceAtPeriodLoop, hb1, hstop]
      rw [hloop, hnone]
      exact ⟨rfl, 0, rfl, rfl, hb1, hstop⟩
    · obtain ⟨hfilter, m, h1, h2, hm⟩ :=
        ih hs.of_cons (ha.trans h23) (not_le.mp hstop).le (by simpa using hb)
      simp only [tsequenceAtPeriodLoop, hb1, hstop, and_false, if_false,
        show inter.lower ≤ inst2.t ∧ inst2.t ≤ inter.upper by omega, and_self, if_true]
      refine ⟨?_, m + 1, by simpa using h1, by simpa using h2, hm⟩
      rw [hfilter]
      exact (List.filter_cons_of_pos (by simpa using ⟨ha, not_le.mp hstop⟩)).symm

lemma TSequence.WellFormed.periodValid {seq : TSequence V B} (hwf : seq.WellFormed) :
    seq.period.Valid := by
  have hs := chain'_t_iff_pairwise.mp hwf.increasing
  have hinst := hwf.instantBounds
  rw [hwf.period]
  match hi : seq.instants with
  | [] => exact absurd hi hwf.nonempty
  | [inst] =>
    rw [hi] at hinst
    simp only [List.length_singleton, true_and, Bool.or_eq_true, Bool.not_eq_true', not_or,
      Bool.not_eq_false] at hinst
    exact .inr ⟨rfl, hinst⟩
  | inst1 :: inst2 :: rest =>
    rw [hi] at hs
    have h12 := List.rel_of_pairwise_cons hs (List.mem_cons_self _ _)
    have h2 := le_lastT_of_getElem? hs (i := 1) (x := inst2) (by simp)
    exact .inl (by simpa [periodOf] using h12.trans_le h2)

lemma TSequence.WellFormed.period_of_length_one {seq : TSequence V B} (hwf : seq.WellFormed)
    (hlen : seq.instants.length = 1) :
    ∃ inst, seq.instants = [inst] ∧ seq.period = ⟨inst.t, inst.t, true, true⟩ := by
  obtain ⟨inst, hi⟩ := List.length_eq_one.mp hlen
  have hinst := hwf.instantBounds
  simp only [hlen, true_and, Bool.or_eq_true, Bool.not_eq_true', not_or, Bool.not_eq_false]
    at hinst
  refine ⟨inst, hi, ?_⟩
  rw [hwf.period, hi, hinst.1, hinst.2]
  rfl

/-- When the intersection with the period is not instantaneous, `tsequence_at_period`
builds the cut of the instant array to the intersection: a well-formed sequence on the
intersection whose array agrees with the array of the sequence from the lower bound
until the upper bound, and at the upper bound too with linear interpolation or an
inclusive upper bound. -/
lemma tsequenceAtPeriod_cut (bt : BaseType V) (bx : BBoxOps V B) {seq : TSequence V B}
    {p inter : Period} (hbt : seq.linear = true → LawfulBaseType bt) (hwf : seq.WellFormed)
    (hlen : 1 < seq.instants.length) (ho : overlapsPeriodPeriod seq.period p = true)
    (hinter : intersectionPeriodPeriod seq.period p = some inter) (hv : inter.Valid)
    (heq : inter.lower ≠ inter.upper) :
    ∃ r, tsequenceAtPeriod bt bx seq p = .ok (some r) ∧ r.WellFormed ∧ r.linear = seq.linear ∧
      r.period = inter ∧
      (∀ t, inter.lower ≤ t → t < inter.upper →
        instantsValueAt bt seq.linear r.instants t = instantsValueAt bt seq.linear seq.instants t) ∧
      (seq.linear = true ∨ inter.upperInc = true →
        instantsValueAt bt seq.linear r.instants inter.upper =
          instantsValueAt bt seq.linear seq.instants inter.upper) := by
  have hs := chain'_t_iff_pairwise.mp hwf.increasing
  have hab : inter.lower < inter.upper := lt_of_le_of_ne hv.le heq
  have hper := hwf.period
  obtain ⟨hlower, hupper⟩ := intersectionPeriodPeriod_bounds hinter
  obtain ⟨m, x1, x2, hn, h1, h2, hx1, hx2⟩ :=
    tsequenceFindTimestamp_lower hwf hlen (t := inter.lower) (by omega) (by omega)
  have hm : m + 1 < seq.instants.length := (List.getElem?_eq_some_iff.mp h2).1
  have hdrop : seq.instants.drop m = x1 :: x2 :: seq.instants.drop (m + 2) := by
    rw [List.drop_eq_getElem_cons (by omega), List.drop_eq_getElem_cons hm]
    simp only [List.getElem?_eq_some_iff] at h1 h2
    rw [h1.2, h2.2]
  set S := seq.instants.drop m with hS
  have hsS : S.Pairwise fun inst1 inst2 => inst1.t < inst2.t := hs.sublist (List.drop_sublist _ _)
  rw [hdrop] at hsS
  have hlast : inter.upper ≤ lastT (x2 :: seq.instants.drop (m + 2)) := by
    have := lastT_drop (show m < seq.instants.length by omega)
    rw [hper] at hupper
    simp only [← hS, hdrop, lastT_cons_cons, periodOf] at this hupper
    omega
  obtain ⟨hfilter, k, hk1, hk2, hkb1, hkb2⟩ := tsequenceAtPeriodLoop_spec hsS hx2 (by omega) hlast
  set r := tsequenceAtPeriodLoop inter x1 x2 (seq.instants.drop (m + 2))
  set va := tsequenceValueAtTimestamp1 bt x1 x2 seq.linear inter.lower
  set vb := tsequenceValueAtTimestamp1 bt r.2.1 r.2.2 seq.linear inter.upper
  have ha : instantsValueAt bt seq.linear (x1 :: x2 :: seq.instants.drop (m + 2)) inter.lower =
      some va := instantsValueAt_of_getElem? hsS (m := 0) (by simp) (by simp) hx1 hx2.le
  have hb : instantsValueAt bt seq.linear (x1 :: x2 :: seq.instants.drop (m + 2)) inter.upper =
      some vb := instantsValueAt_of_getElem? hsS hk1 hk2 hkb1 hkb2
  set first := tsequenceAtTimestamp1 bt x1 x2 seq.linear inter.lower
  set w := if seq.linear ∨ inter.upperInc then vb else ((first :: r.1).getLast?.getD first).value
    with hw
  have hr1 : r.1 = (x1 :: x2 :: seq.instants.drop (m + 2)).filter
      fun inst => inter.lower < inst.t ∧ inst.t < inter.upper := by
    rw [hfilter]
    exact (List.filter_cons_of_neg (by simp only [decide_eq_true_eq]; omega)).symm
  set R := (⟨va, inter.lower⟩ :: (x1 :: x2 :: seq.instants.drop (m + 2)).filter
    (fun inst => inter.lower < inst.t ∧ inst.t < inter.upper) ++ [⟨w, inter.upper⟩] :
      List (TInstant V)) with hR
  have hRcut : first :: r.1 ++ [⟨w, inter.upper⟩] = R := by rw [hR, hr1]; rfl
  have hsR : R.Pairwise fun inst1 inst2 => inst1.t < inst2.t := pairwise_cut va w hsS hab
  have hunfold : tsequenceAtPeriod bt bx seq p =
      some <$> tsequenceMake bt bx R inter.lowerInc inter.upperInc seq.linear false := by
    have hseg : segmentAt seq m = some (x1, x2) := by simp [segmentAt, h1, h2]
    have hlast : (if seq.linear ∨ inter.upperInc then tsequenceAtTimestamp1 bt r.2.1 r.2.2
        seq.linear inter.upper else ⟨((first :: r.1).getLast?.getD first).value, inter.upper⟩) =
        ⟨w, inter.upper⟩ := by
      rw [hw]
      split_ifs <;> rfl
    simp only [tsequenceAtPeriod, ho, hinter, heq, hn, hseg, show seq.instants.length ≠ 1 by omega,
      Bool.not_true, Bool.false_eq_true, if_false, Int.toNat_natCast]
    rw [hlast, hRcut]
    rfl
  have hcheck : tsequenceMakeCheck R inter.lowerInc inter.upperInc seq.linear = .ok () := by
    refine tsequenceMakeCheck_eq_ok.mpr ⟨by simp [R], chain'_t_iff_pairwise.mpr hsR,
      by simp [R], ?_⟩
    by_cases hc : seq.linear = true ∨ inter.upperInc = true
    · rcases hc with hc | hc <;> simp [hc]
    · have hg : w = ((first :: r.1).getLast?.getD first).value := by rw [hw, if_neg hc]
      rw [← hRcut, lastTwo?_append_singleton]
      cases hl : (first :: r.1).getLast? with
      | none => simp
      | some g =>
        rw [hl, Option.getD_some] at hg
        simp [hg]
  have hmake : tsequenceMake bt bx R inter.lowerInc inter.upperInc seq.linear false =
      .ok ⟨R, periodOf R inter.lowerInc inter.upperInc, seq.linear,
        bx.make R inter.lowerInc inter.upperInc⟩ :=
    tsequenceMake_eq_ok.mpr ⟨hcheck, by simp⟩
  have hperR : periodOf R inter.lowerInc inter.upperInc = inter := by
    rw [← hRcut]
    simp only [periodOf, lastT, List.getLast?_concat]
    rfl
  refine ⟨_, by rw [hunfold, hmake]; rfl, tsequenceMake_wellFormed hmake, rfl, hperR,
    fun t hat htb => ?_, fun hc => ?_⟩ <;>
    rw [instantsValueAt_drop hs h1 (by omega), ← hS, hdrop]
  · exact instantsValueAt_cut hbt hsS ha hb (fun hl => by rw [hw, if_pos (.inl hl)]) hab hat htb
  · rw [hb, instantsValueAt_append_last hsR, hw, if_pos hc]

/-- When the intersection with the period is not instantaneous, `tsequence_at_period`
builds the cut of the sequence to the intersection. -/
lemma tsequenceAtPeriod_general (bt : BaseType V) (bx : BBoxOps V B) {seq : TSequence V B}
    {p inter : Period} (hbt : seq.linear = true → LawfulBaseType bt) (hwf : seq.WellFormed)
    (hlen : 1 < seq.instants.length) (ho : overlapsPeriodPeriod seq.period p = true)
    (hinter : intersectionPeriodPeriod seq.period p = some inter) (hv : inter.Valid)
    (heq : inter.lower ≠ inter.upper) :
    ∃ r, tsequenceAtPeriod bt bx seq p = .ok (some r) ∧ r.WellFormed ∧ r.linear = seq.linear ∧
      ∀ t, r.valueAt bt t = if containsPeriodTimestamp inter t then
        instantsValueAt bt seq.linear seq.instants t else none := by
  obtain ⟨r, hr, hwfr, hlin, hper, hcut, hend⟩ :=
    tsequenceAtPeriod_cut bt bx hbt hwf hlen ho hinter hv heq
  refine ⟨r, hr, hwfr, hlin, fun t => ?_⟩
  rw [TSequence.valueAt, hper, hlin]
  by_cases hc : containsPeriodTimestamp inter t = true
  swap
  · simp [hc]
  rw [if_pos hc, if_pos hc]
  have hbt' := bounds_of_containsPeriodTimestamp hc
  rcases hbt'.2.lt_or_eq with htb | rfl
  · exact hcut t hbt'.1 htb
  · rw [containsPeriodTimestamp_iff] at hc
    exact hend (.inr (hc.2.resolve_left (lt_irrefl _)).1)

/-- When the intersection with the period is instantaneous, `tsequence_at_period`
builds the instant of the sequence at it. -/
lemma tsequenceAtPeriod_instant (bt : BaseType V) (bx : BBoxOps V B) {seq : TSequence V B}
    {p inter : Period} (hwf : seq.WellFormed) (hlen : seq.instants.length ≠ 1)
    (ho : overlapsPeriodPeriod seq.period p = true)
    (hinter : intersectionPeriodPeriod seq.period p = some inter) (hv : inter.Valid)
    (heq : inter.lower = inter.upper) :
    ∃ r, tsequenceAtPeriod bt bx seq p = .ok (some r) ∧ r.WellFormed ∧ r.linear = seq.linear ∧
      ∀ t, r.valueAt bt t = if containsPeriodTimestamp inter t then
        instantsValueAt bt seq.linear seq.instants t else none := by
  have hc := hv.contains_iff_of_eq heq
  have hcs : containsPeriodTimestamp seq.period inter.lower = true :=
    ((intersectionPeriodPeriod_contains hinter _).mp ((hc _).mpr rfl)).1
  obtain ⟨va, hva⟩ := Option.isSome_iff_exists.mp ((TSequence.valueAt_isSome hwf _).trans hcs)
  have hat : tsequenceAtTimestamp bt seq inter.lower = some ⟨va, inter.lower⟩ := by
    rw [tsequenceAtTimestamp_eq_valueAt bt hwf, hva]
    rfl
  have hmake : tsequenceMake bt bx [⟨va, inter.lower⟩] true true seq.linear false =
      .ok ⟨[⟨va, inter.lower⟩], periodOf [⟨va, inter.lower⟩] true true, seq.linear,
        bx.make [⟨va, inter.lower⟩] true true⟩ :=
    tsequenceMake_eq_ok.mpr ⟨tsequenceMakeCheck_eq_ok.mpr ⟨by simp, by simp, by simp, by
      simp [lastTwo?]⟩, by simp⟩
  refine ⟨_, ?_, tsequenceMake_wellFormed hmake, rfl, fun t => ?_⟩
  · simp only [tsequenceAtPeriod, ho, hinter, hlen, if_pos heq, hat, Bool.not_true,
      Bool.false_eq_true, if_false, hmake]
    rfl
  · rw [tsequenceMake_valueAt hmake]
    simp only [hc]
    simp only [TSequence.valueAt, hcs, if_true] at hva
    by_cases ht : t = inter.lower
    · subst ht
      simp [containsPeriodTimestamp, periodOf, instantsValueAt, hva]
    · simp [containsPeriodTimestamp, periodOf, ht]
      omega

/-- On a well-formed sequence and a valid period, `tsequence_at_period` succeeds, and
what it returns is well formed and denotes the sequence restricted to the period:
nothing when they do not overlap. -/
theorem tsequenceAtPeriod_valueAt (bt : BaseType V) (bx : BBoxOps V B) {seq : TSequence V B}
    {p : Period} (hbt : seq.linear = true → LawfulBaseType bt) (hwf : seq.WellFormed)
    (hp : p.Valid) :
    ∃ res, tsequenceAtPeriod bt bx seq p = .ok res ∧
      res.isSome = overlapsPeriodPeriod seq.period p ∧
      (∀ r ∈ res, r.WellFormed ∧ r.linear = seq.linear) ∧
      ∀ t, res.bind (fun r => r.valueAt bt t) =
        if containsPeriodTimestamp p t then seq.valueAt bt t else none := by
  by_cases ho : overlapsPeriodPeriod seq.period p = true
  swap
  · refine ⟨none, by simp [tsequenceAtPeriod, ho, pure, Except.pure], by simp [ho], by simp,
      fun t => ?_⟩
    by_cases hpt : containsPeriodTimestamp p t = true
    · have hst : containsPeriodTimestamp seq.period t ≠ true :=
        fun hst => ho (overlapsPeriodPeriod_of_contains hst hpt)
      simp [hpt, TSequence.valueAt, hst]
    · simp [hpt]
  by_cases hlen : seq.instants.length = 1
  · refine ⟨some (tsequenceCopy seq), by simp [tsequenceAtPeriod, ho, hlen]; rfl, by simp [ho],
      by simp [tsequenceCopy, hwf], fun t => ?_⟩
    obtain ⟨inst, -, hper⟩ := hwf.period_of_length_one hlen
    rw [hper, overlapsPeriodPeriod_instant] at ho
    rw [Option.some_bind, tsequenceCopy, TSequence.valueAt, hper]
    by_cases hpt : containsPeriodTimestamp p t = true
    · simp [hpt]
    · have ht : containsPeriodTimestamp ⟨inst.t, inst.t, true, true⟩ t ≠ true := fun h => by
        obtain rfl : t = inst.t := by
          have := bounds_of_containsPeriodTimestamp h
          dsimp only at this
          omega
        exact hpt ho
      simp [hpt, ht]
  obtain ⟨inter, hinter⟩ := intersectionPeriodPeriod_isSome ho
  have hv := intersectionPeriodPeriod_valid hwf.periodValid hp hinter
  obtain ⟨r, hr, hwfr, hlin, hval⟩ : ∃ r, tsequenceAtPeriod bt bx seq p = .ok (some r) ∧
      r.WellFormed ∧ r.linear = seq.linear ∧ ∀ t, r.valueAt bt t =
        if containsPeriodTimestamp inter t then instantsValueAt bt seq.linear seq.instants t
        else none := by
    by_cases heq : inter.lower = inter.upper
    · exact tsequenceAtPeriod_instant bt bx hwf hlen ho hinter hv heq
    · exact tsequenceAtPeriod_general bt bx hbt hwf (by
        have := List.length_pos.mpr hwf.nonempty
        omega) ho hinter hv heq
  refine ⟨some r, hr, by simp [ho], by simp [hwfr, hlin], fun t => ?_⟩
  rw [Option.some_bind, hval, TSequence.valueAt]
  by_cases hpt : containsPeriodTimestamp p t = true <;>
    by_cases hst : containsPeriodTimestamp seq.period t = true <;>
    simp [hpt, hst, intersectionPeriodPeriod_contains hinter]

lemma tsequenceAtPeriod_some {bt : BaseType V} {bx : BBoxOps V B} {seq r : TSequence V B}
    {p : Period} (hbt : seq.linear = true → LawfulBaseType bt) (hwf : seq.WellFormed)
    (hp : p.Valid) (h : tsequenceAtPeriod bt bx seq p = .ok (some r)) :
    r.WellFormed ∧ r.linear = seq.linear ∧
      ∀ t, r.valueAt bt t = if containsPeriodTimestamp p t then seq.valueAt bt t else none := by
  obtain ⟨res, hres, -, hr, hval⟩ := tsequenceAtPeriod_valueAt bt bx hbt hwf hp
  rw [h] at hres
  cases hres
  exact ⟨(hr r rfl).1, (hr r rfl).2, fun t => by simpa using hval t⟩

lemma contains_of_valueAt_eq_ite {bt : BaseType V} {r : TSequence V B} {p : Period}
    {f : ℤ → Option V} (hwf : r.WellFormed)
    (hval : ∀ t, r.valueAt bt t = if containsPeriodTimestamp p t then f t else none) {t : ℤ}
    (ht : containsPeriodTimestamp r.period t = true) : containsPeriodTimestamp p t = true := by
  have hsome : (r.valueAt bt t).isSome = containsPeriodTimestamp r.period t :=
    TSequence.valueAt_isSome hwf t
  rw [ht, hval] at hsome
  by_contra hpt
  simp [hpt] at hsome

end TemporalSequence
