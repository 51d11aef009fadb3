import TemporalSequence.Proofs.SyncLoop
import TemporalSequence.TNumber

/-!
# Synchronization of two sequences

`synchronize_tsequence_tsequence` on two valid sequences whose periods intersect
returns two sequences over the intersection with the same timestamps, among them every
timestamp of either sequence in the intersection, each taking the values of its
sequence there. The loop is `synchronizeLoop_spec`; this module adds its start, found
by the search when one sequence starts earlier, and its end, which patches a step
sequence with an exclusive upper bound.
-/

namespace TemporalSequence

variable {V B : Type} [DecidableEq V]

/-! ## The end patch -/

/-- The end patch either keeps the array, which then passes the end check of
`tsequence_make`, or, with step interpolation, an exclusive upper bound and distinct last
two values, gives the last instant the value of the one before it. -/
lemma synchronizeStepEnd_spec (linear upperInc : Bool) (l : List (TInstant V)) :
    (¬(!linear ∧ (lastTwo? l).any (fun p => p.1.value ≠ p.2.value) ∧ !upperInc) ∧
        synchronizeStepEnd linear upperInc l = l) ∨
      upperInc = false ∧ linear = false ∧ ∃ init a b, l = init ++ [a, b] ∧ a.value ≠ b.value ∧
        synchronizeStepEnd linear upperInc l = init ++ [a, ⟨a.value, b.t⟩] := by
  unfold synchronizeStepEnd
  by_cases hc : (!upperInc) = true ∧ (!linear) = true
  · rw [if_pos hc]
    simp only [Bool.not_eq_true'] at hc
    rcases h : lastTwo? l with _ | ⟨a, b⟩
    · exact .inl ⟨by simp [h], rfl⟩
    · obtain ⟨init, rfl⟩ := exists_eq_append_of_lastTwo? h
      by_cases hv : a.value = b.value
      · exact .inl ⟨by simp [h, hv], by simp [hv]⟩
      · refine .inr ⟨hc.1, hc.2, init, a, b, rfl, hv, ?_⟩
        dsimp only
        rw [if_pos hv, show init ++ [a, b] = (init ++ [a]) ++ [b] by simp, List.dropLast_concat]
        simp
  · rw [if_neg hc]
    refine .inl ⟨fun h => hc ?_, rfl⟩
    exact ⟨h.2.2, h.1⟩

lemma synchronizeStepEnd_map_t (linear upperInc : Bool) (l : List (TInstant V)) :
    (synchronizeStepEnd linear upperInc l).map TInstant.t = l.map TInstant.t := by
  rcases synchronizeStepEnd_spec linear upperInc l with ⟨-, h⟩ | ⟨-, -, init, a, b, rfl, -, h⟩
  · rw [h]
  · simp [h]

lemma synchronizeStepEnd_of_upperInc_or_linear {linear upperInc : Bool}
    (h : upperInc = true ∨ linear = true) (l : List (TInstant V)) :
    synchronizeStepEnd linear upperInc l = l := by
  rcases synchronizeStepEnd_spec linear upperInc l with ⟨-, h'⟩ | ⟨hu, hl, -⟩
  · exact h'
  · simp [hu, hl] at h

lemma synchronizeStepEnd_chain' {linear upperInc : Bool} {r : TInstant V → TInstant V → Prop}
    (hr : linear = false → ∀ a b b', b'.t = b.t → r a b → r a b') {l : List (TInstant V)}
    (h : l.Chain' r) : (synchronizeStepEnd linear upperInc l).Chain' r := by
  rcases synchronizeStepEnd_spec linear upperInc l with ⟨-, h'⟩ | ⟨-, hl, init, a, b, rfl, -, h'⟩
  · rwa [h']
  · rw [h']
    rw [show init ++ [a, b] = init ++ [a] ++ [b] by simp, List.chain'_append] at h
    rw [show init ++ [a, ⟨a.value, b.t⟩] = init ++ [a] ++ [⟨a.value, b.t⟩] by simp,
      List.chain'_append]
    refine ⟨h.1, List.chain'_singleton _, fun x hx y hy => ?_⟩
    rw [List.head?_cons, Option.mem_some_iff] at hy
    subst hy
    exact hr hl x b _ rfl (h.2.2 x hx b rfl)

/-- `tsequence_make` without normalization accepts the patched array of at least two
instants in time order, and builds the sequence of its instants over their period. -/
lemma tsequenceMake_synchronizeStepEnd {bt : BaseType V} {bx : BBoxOps V B}
    {lowerInc upperInc linear : Bool} {l : List (TInstant V)} (hlen : 2 ≤ l.length)
    (hs : l.Chain' fun a b => a.t < b.t) :
    tsequenceMake bt bx (synchronizeStepEnd linear upperInc l) lowerInc upperInc linear false =
      .ok ⟨synchronizeStepEnd linear upperInc l,
        periodOf (synchronizeStepEnd linear upperInc l) lowerInc upperInc, linear,
        bx.make (synchronizeStepEnd linear upperInc l) lowerInc upperInc⟩ := by
  have hmap := synchronizeStepEnd_map_t linear upperInc l
  have hlen' : 2 ≤ (synchronizeStepEnd linear upperInc l).length := by
    have := congrArg List.length hmap
    simp only [List.length_map] at this
    omega
  refine tsequenceMake_eq_ok.mpr ⟨tsequenceMakeCheck_eq_ok.mpr ⟨?_, ?_, ?_, ?_⟩, by simp⟩
  · rintro h
    simp [h] at hlen'
  · rw [← List.chain'_map TInstant.t, hmap, List.chain'_map]
    exact hs
  · omega
  · rcases synchronizeStepEnd_spec linear upperInc l with ⟨hc, h⟩ | ⟨-, -, init, a, b, -, -, h⟩
    · rwa [h]
    · rw [h, show init ++ [a, ⟨a.value, b.t⟩] = (init ++ [a]) ++ [⟨a.value, b.t⟩] by simp,
        lastTwo?_append_singleton]
      simp

/-! ## The start of the loop -/

omit [DecidableEq V] in
/-- In a sorted array, the instants after a timestamp `L` at or after the instant of index
`m` and before the next one are the instants from index `m + 1`. -/
lemma filter_lt_eq_drop_succ {instants : List (TInstant V)}
    (hs : instants.Pairwise fun a b => a.t < b.t) {m : ℕ} {x : TInstant V} {L : ℤ}
    (hx : instants[m]? = some x) (hxL : x.t ≤ L)
    (hnext : ∀ y, instants[m + 1]? = some y → L < y.t) :
    instants.filter (fun s => L < s.t) = instants.drop (m + 1) := by
  have htake : (instants.take (m + 1)).filter (fun s => L < s.t) = [] :=
    List.filter_eq_nil_iff.mpr fun a ha => by
      obtain ⟨i, hi⟩ := List.mem_iff_getElem?.mp ha
      rw [List.getElem?_take] at hi
      split_ifs at hi with him
      simpa using (t_le_of_getElem? hs hi hx (by omega)).trans hxL
  have hdrop : (instants.drop (m + 1)).filter (fun s => L < s.t) = instants.drop (m + 1) :=
    List.filter_eq_self.mpr fun b hb => by
      obtain ⟨i, hi⟩ := List.mem_iff_getElem?.mp hb
      rw [List.getElem?_drop] at hi
      have hy := List.getElem?_eq_getElem (show m + 1 < instants.length from
        lt_of_le_of_lt (Nat.le_add_right _ i) (List.getElem?_eq_some_iff.mp hi).1)
      simpa using (hnext _ hy).trans_le (t_le_of_getElem? hs hy hi (Nat.le_add_right _ i))
  conv_lhs => rw [← List.take_append_drop (m + 1) instants]
  rw [List.filter_append, htake, hdrop, List.nil_append]

/-- Strictly inside the span of a well-formed sequence, the instants after the segment
the search finds are the instants after the timestamp. -/
lemma drop_tsequenceFindTimestamp {seq : TSequence V B} (hwf : seq.WellFormed) {L : ℤ}
    (h1 : firstT seq.instants < L) (h2 : L < lastT seq.instants) :
    seq.instants.drop (tsequenceFindTimestamp seq L + 1).toNat =
      seq.instants.filter fun s => L < s.t := by
  have hs := chain'_t_iff_pairwise.mp hwf.increasing
  have hlen : 1 < seq.instants.length := by
    match hi : seq.instants, h1, h2 with
    | [], _, _ => exact absurd hi hwf.nonempty
    | [x], h1, h2 => simp only [firstT_cons, lastT_singleton] at h1 h2; omega
    | _ :: _ :: _, _, _ => simp
  obtain ⟨m, x1, x2, hfind, hx1, hx2, hm⟩ := tsequenceFindTimestamp_of_contains hwf hlen
    (containsPeriodTimestamp_of_inside hwf h1 h2)
  obtain ⟨hxL, hLx, hlast⟩ := segmentHolds_bounds hm (t_lt_of_getElem? hs hx1 hx2 (lt_add_one m))
  have hLx : L < x2.t := by
    refine lt_of_le_of_ne hLx fun heq => ?_
    have hml := hlast heq
    have : x2.t = lastT seq.instants := by
      simp [lastT, List.getLast?_eq_getElem?, show seq.instants.length - 1 = m + 1 by omega, hx2]
    omega
  rw [hfind, show ((m : ℤ) + 1).toNat = m + 1 by omega]
  exact (filter_lt_eq_drop_succ hs hx1 hxL fun y hy => by
    rw [hx2, Option.some.injEq] at hy
    exact hy ▸ hLx).symm

omit [DecidableEq V] in
lemma drop_one_eq_filter {instants : List (TInstant V)}
    (hs : instants.Pairwise fun a b => a.t < b.t) {first : TInstant V} {rest : List (TInstant V)}
    (h : instants = first :: rest) :
    instants.drop 1 = instants.filter fun s => first.t < s.t := by
  subst h
  rw [List.filter_cons_of_neg (by simp), List.filter_eq_self.mpr fun b hb => by
    simpa using List.rel_of_pairwise_cons hs hb]
  rfl

/-- The start of the loop: the sequence starting before `lower` is evaluated there and
read on from the segment the search finds; the other starts at its first instant, at
`lower`. Both current instants are then at `lower`, with the instants after them still
to read. -/
lemma synchronizeStart_spec {bt : BaseType V} {seq1 seq2 : TSequence V B} {crossings : Bool}
    {lower upper : ℤ} (hset : SyncSetting bt seq1 seq2 crossings lower upper)
    {first1 first2 : TInstant V} {rest1 rest2 : List (TInstant V)}
    (h1 : seq1.instants = first1 :: rest1) (h2 : seq2.instants = first2 :: rest2)
    (hlower : lower = max first1.t first2.t) :
    ∃ inst1 i inst2 j, synchronizeStart bt seq1 seq2 lower first1 first2 = .ok (inst1, i, inst2, j) ∧
      SyncState bt seq1 seq2 lower none inst1 (seq1.instants.drop (i + 1).toNat) inst2
        (seq2.instants.drop (j + 1).toNat) := by
  have hs1 := chain'_t_iff_pairwise.mp hset.wf1.increasing
  have hs2 := chain'_t_iff_pairwise.mp hset.wf2.increasing
  have hu1 := hset.upper1
  have hu2 := hset.upper2
  have hlu := hset.lower_lt_upper
  have hon1 : LiesOn bt seq1.linear seq1.instants first1 := liesOn_of_mem hs1 (by simp [h1])
  have hon2 : LiesOn bt seq2.linear seq2.instants first2 := liesOn_of_mem hs2 (by simp [h2])
  unfold synchronizeStart
  by_cases hlt1 : first1.t < lower
  · have hf1 : firstT seq1.instants < lower := by simpa [h1] using hlt1
    obtain ⟨inst, hat, hit, hon⟩ := tsequenceAtTimestamp_liesOn bt hset.wf1
      (containsPeriodTimestamp_of_inside hset.wf1 hf1 (by omega))
    rw [if_pos hlt1, hat]
    refine ⟨_, _, _, _, rfl, hon, hon2, ?_, ?_, fun _ => ⟨hit, by omega⟩, by simp⟩
    · rw [hit, drop_tsequenceFindTimestamp hset.wf1 hf1 (by omega)]
    · rw [show ((0 : ℤ) + 1).toNat = 1 from rfl, drop_one_eq_filter hs2 h2]
  · by_cases hlt2 : first2.t < lower
    · have hf2 : firstT seq2.instants < lower := by simpa [h2] using hlt2
      obtain ⟨inst, hat, hit, hon⟩ := tsequenceAtTimestamp_liesOn bt hset.wf2
        (containsPeriodTimestamp_of_inside hset.wf2 hf2 (by omega))
      rw [if_neg hlt1, if_pos hlt2, hat]
      refine ⟨_, _, _, _, rfl, hon1, hon, ?_, ?_, fun _ => ⟨by omega, hit⟩, by simp⟩
      · rw [show ((0 : ℤ) + 1).toNat = 1 from rfl, drop_one_eq_filter hs1 h1]
      · rw [hit, drop_tsequenceFindTimestamp hset.wf2 hf2 (by omega)]
    · rw [if_neg hlt1, if_neg hlt2]
      refine ⟨_, _, _, _, rfl, hon1, hon2, drop_one_eq_filter hs1 h1, drop_one_eq_filter hs2 h2,
        fun _ => ⟨by omega, by omega⟩, by simp⟩

/-! ## One synchronized sequence -/

omit [DecidableEq V] in
lemma firstT_eq_of_map_t {l1 l2 : List (TInstant V)} (h : l1.map TInstant.t = l2.map TInstant.t) :
    firstT l1 = firstT l2 := by
  simp only [firstT, ← List.head?_map, h]

omit [DecidableEq V] in
lemma lastT_eq_of_map_t {l1 l2 : List (TInstant V)} (h : l1.map TInstant.t = l2.map TInstant.t) :
    lastT l1 = lastT l2 := by
  simp only [lastT, ← List.getLast?_map, h]

omit [DecidableEq V] in
lemma two_le_length_of_firstT_lt_lastT {l : List (TInstant V)} (h : firstT l < lastT l) :
    2 ≤ l.length := by
  match l, h with
  | [], h => simp [firstT, lastT] at h
  | [x], h => simp at h
  | _ :: _ :: _, _ => simp

/-- An array in time order of instants lying on a well-formed sequence, from `lower` to
`upper`, with a timestamp at every instant of the sequence in between, takes once
patched at its end the values of the sequence from `lower` on, before `upper` or at
`upper` when `upperInc` keeps it. -/
lemma instantsValueAt_synchronizeStepEnd {bt : BaseType V} {seq : TSequence V B}
    (hwf : seq.WellFormed) (hbt : seq.linear = true → LawfulBaseType bt)
    {sync : List (TInstant V)} {lower upper : ℤ} {upperInc : Bool}
    (hsorted : sync.Pairwise fun a b => a.t < b.t)
    (hon : ∀ x ∈ sync, LiesOn bt seq.linear seq.instants x)
    (hfirst : firstT sync = lower) (hlast : lastT sync = upper) (hne : sync ≠ [])
    (hcov : ∀ s ∈ seq.instants, lower ≤ s.t → s.t ≤ upper → ∃ x ∈ sync, x.t = s.t)
    {t : ℤ} (h1 : lower ≤ t) (h2 : t < upper ∨ upperInc = true ∧ t = upper) :
    instantsValueAt bt seq.linear (synchronizeStepEnd seq.linear upperInc sync) t =
      instantsValueAt bt seq.linear seq.instants t := by
  have hs := chain'_t_iff_pairwise.mp hwf.increasing
  have hmap := synchronizeStepEnd_map_t seq.linear upperInc sync
  rcases h2 with h2 | ⟨hu, rfl⟩
  · have hfirst' := (firstT_eq_of_map_t hmap).trans hfirst
    have hlast' := (lastT_eq_of_map_t hmap).trans hlast
    refine instantsValueAt_of_refines hs hbt (List.pairwise_map.mp (hmap ▸ List.pairwise_map.mpr hsorted))
      (synchronizeStepEnd_chain' (fun hl a b b' hb' ⟨ha, hb, _⟩ => ⟨ha, hb' ▸ hb, by simp [hl]⟩)
        (hsorted.imp_of_mem fun ha hb _ => ⟨hon _ ha, by rw [hon _ hb]; rfl, fun _ => hon _ hb⟩).chain')
      (fun s hsm hls hsu => ?_) (hfirst' ▸ h1) (hlast' ▸ h2)
    obtain ⟨x, hx, hxt⟩ := hcov s hsm (by omega) (by omega)
    obtain ⟨q, hq, hqt⟩ := List.mem_map.mp (hmap ▸ List.mem_map_of_mem TInstant.t hx)
    exact ⟨q, hq, hqt.trans hxt⟩
  · rw [synchronizeStepEnd_of_upperInc_or_linear (.inl hu)]
    obtain ⟨last, hl⟩ := Option.isSome_iff_exists.mp (List.getLast?_isSome.mpr hne)
    obtain ⟨init, rfl⟩ := List.getLast?_eq_some_iff.mp hl
    have hlt : last.t = lastT (init ++ [last]) := by simp [lastT]
    rw [← hlast, ← hlt, instantsValueAt_append_last hsorted]
    exact (hon last (by simp)).symm

/-! ## The synchronization -/

/-- Two sequences `sync1` and `sync2` synchronize `seq1` and `seq2` over `inter`: well
formed over `inter`, with the same timestamps, among them every timestamp of `seq1` and
`seq2` in `inter`, each taking the values of its sequence on `inter`. -/
structure Synchronized (bt : BaseType V) (seq1 seq2 : TSequence V B) (inter : Period)
    (sync1 sync2 : TSequence V B) : Prop where
  wf1 : sync1.WellFormed
  wf2 : sync2.WellFormed
  sameTimes : sync1.instants.map TInstant.t = sync2.instants.map TInstant.t
  period1 : sync1.period = inter
  period2 : sync2.period = inter
  covers : ∀ s ∈ seq1.instants ++ seq2.instants, containsPeriodTimestamp inter s.t = true →
    s.t ∈ sync1.instants.map TInstant.t
  agrees : ∀ t, containsPeriodTimestamp inter t = true →
    sync1.valueAt bt t = seq1.valueAt bt t ∧ sync2.valueAt bt t = seq2.valueAt bt t

lemma tsequenceMake_single (bt : BaseType V) (bx : BBoxOps V B) (linear : Bool) (inst : TInstant V) :
    tsequenceMake bt bx [inst] true true linear false =
      .ok ⟨[inst], periodOf [inst] true true, linear, bx.make [inst] true true⟩ :=
  tsequenceMake_eq_ok.mpr ⟨tsequenceMakeCheck_eq_ok.mpr ⟨by simp, by simp, by simp, by simp [lastTwo?]⟩, rfl⟩

/-- Over an instantaneous intersection the synchronization evaluates both sequences at
its timestamp. -/
lemma synchronizeTsequenceTsequence_instant {bt : BaseType V} {bx : BBoxOps V B}
    {seq1 seq2 : TSequence V B} {inter : Period} (crossings : Bool) (hwf1 : seq1.WellFormed)
    (hwf2 : seq2.WellFormed) (hinter : intersectionPeriodPeriod seq1.period seq2.period = some inter)
    (hLU : inter.lower = inter.upper) (hli : inter.lowerInc = true) (hui : inter.upperInc = true) :
    ∃ sync1 sync2, synchronizeTsequenceTsequence bt bx seq1 seq2 crossings = .ok (some (sync1, sync2)) ∧
      Synchronized bt seq1 seq2 inter sync1 sync2 := by
  have hin : ∀ t, containsPeriodTimestamp inter t = true ↔ t = inter.lower :=
    Period.Valid.contains_iff_of_eq (.inr ⟨hLU, hli, hui⟩) hLU
  obtain ⟨hc1, hc2⟩ := (intersectionPeriodPeriod_contains hinter _).mp ((hin _).mpr rfl)
  obtain ⟨inst1, hat1, hit1, hon1⟩ := tsequenceAtTimestamp_liesOn bt hwf1 hc1
  obtain ⟨inst2, hat2, hit2, hon2⟩ := tsequenceAtTimestamp_liesOn bt hwf2 hc2
  have hper : ∀ inst : TInstant V, inst.t = inter.lower → periodOf [inst] true true = inter := by
    intro inst hi
    obtain ⟨l, u, li, ui⟩ := inter
    simp_all [periodOf]
  have hval : ∀ {seq : TSequence V B} {inst : TInstant V}, inst.t = inter.lower →
      containsPeriodTimestamp seq.period inter.lower = true →
      LiesOn bt seq.linear seq.instants inst →
      TSequence.valueAt bt ⟨[inst], periodOf [inst] true true, seq.linear, bx.make [inst] true true⟩
        inter.lower = seq.valueAt bt inter.lower := fun hi hc hon => by
    rw [TSequence.valueAt, TSequence.valueAt, hc, if_pos (by simp [hper _ hi, hin]), if_pos rfl,
      ← hi, hon]
    simp [instantsValueAt]
  refine ⟨_, _, ?_, tsequenceMake_wellFormed (tsequenceMake_single bt bx seq1.linear inst1),
    tsequenceMake_wellFormed (tsequenceMake_single bt bx seq2.linear inst2), by simp [hit1, hit2],
    hper _ hit1, hper _ hit2, fun s _ hs => by simp [hit1, (hin _).mp hs],
    fun t ht => ?_⟩
  · unfold synchronizeTsequenceTsequence
    rw [hinter]
    dsimp only
    rw [if_pos hLU, hat1, hat2]
    simp only [tsequenceMake_single]
    rfl
  · rw [(hin t).mp ht]
    exact ⟨hval hit1 hc1 hon1, hval hit2 hc2 hon2⟩

omit [DecidableEq V] in
lemma periodOf_eq_of_bounds {l : List (TInstant V)} {inter : Period} (h1 : firstT l = inter.lower)
    (h2 : lastT l = inter.upper) : periodOf l inter.lowerInc inter.upperInc = inter := by
  obtain ⟨lower, upper, lowerInc, upperInc⟩ := inter
  simp_all [periodOf]

lemma valueAt_synchronized {bt : BaseType V} {seq : TSequence V B} (hwf : seq.WellFormed)
    (hbt : seq.linear = true → LawfulBaseType bt) {sync : List (TInstant V)} {inter : Period}
    (hsorted : sync.Pairwise fun a b => a.t < b.t)
    (hon : ∀ x ∈ sync, LiesOn bt seq.linear seq.instants x)
    (hfirst : firstT sync = inter.lower) (hlast : lastT sync = inter.upper) (hne : sync ≠ [])
    (hcov : ∀ s ∈ seq.instants, inter.lower ≤ s.t → s.t ≤ inter.upper → ∃ x ∈ sync, x.t = s.t)
    (bbox : B) {t : ℤ} (ht : containsPeriodTimestamp inter t = true)
    (hts : containsPeriodTimestamp seq.period t = true) :
    TSequence.valueAt bt ⟨synchronizeStepEnd seq.linear inter.upperInc sync,
      periodOf (synchronizeStepEnd seq.linear inter.upperInc sync) inter.lowerInc inter.upperInc,
      seq.linear, bbox⟩ t = seq.valueAt bt t := by
  have hmap := synchronizeStepEnd_map_t seq.linear inter.upperInc sync
  rw [TSequence.valueAt, TSequence.valueAt, hts, periodOf_eq_of_bounds
    ((firstT_eq_of_map_t hmap).trans hfirst) ((lastT_eq_of_map_t hmap).trans hlast), ht, if_pos rfl,
    if_pos rfl]
  obtain ⟨hl, hu⟩ := containsPeriodTimestamp_iff.mp ht
  exact instantsValueAt_synchronizeStepEnd hwf hbt hsorted hon hfirst hlast hne hcov (by omega)
    (by rcases hu with hu | ⟨hu, rfl⟩ <;> simp_all)

/-- Over an intersection of positive duration the synchronization runs its loop from the
lower bound of the intersection to its upper bound, and patches the step sequences at
the end. -/
lemma synchronizeTsequenceTsequence_of_lt {bt : BaseType V} {bx : BBoxOps V B}
    {seq1 seq2 : TSequence V B} {inter : Period} (crossings : Bool)
    (hbt1 : seq1.linear = true → LawfulBaseType bt) (hbt2 : seq2.linear = true → LawfulBaseType bt)
    (hwf1 : seq1.WellFormed) (hwf2 : seq2.WellFormed)
    (hinter : intersectionPeriodPeriod seq1.period seq2.period = some inter)
    (hLU : inter.lower < inter.upper)
    (hcross : crossings = true → CrossingsInside bt seq1 seq2 inter.lower inter.upper) :
    ∃ sync1 sync2, synchronizeTsequenceTsequence bt bx seq1 seq2 crossings = .ok (some (sync1, sync2)) ∧
      Synchronized bt seq1 seq2 inter sync1 sync2 := by
  obtain ⟨hL, hU⟩ := intersectionPeriodPeriod_bounds hinter
  rw [hwf1.period, hwf2.period] at hL hU
  simp only [periodOf] at hL hU
  have hset : SyncSetting bt seq1 seq2 crossings inter.lower inter.upper :=
    ⟨hwf1, hwf2, hbt1, hbt2, hLU, by omega, by omega, by omega, by omega, by omega, hcross⟩
  obtain ⟨first1, rest1, h1⟩ := List.exists_cons_of_ne_nil hwf1.nonempty
  obtain ⟨first2, rest2, h2⟩ := List.exists_cons_of_ne_nil hwf2.nonempty
  obtain ⟨inst1, i, inst2, j, hstart, hst⟩ :=
    synchronizeStart_spec hset h1 h2 (by simpa [h1, h2] using hL)
  obtain ⟨pairs, hloop, hsp, hne⟩ :=
    synchronizeLoop_spec hset _ rfl hst (by have := hst.start rfl; omega)
  -- the two arrays of synchronized instants
  have hsame : (pairs.map Prod.fst).map TInstant.t = (pairs.map Prod.snd).map TInstant.t := by
    simp only [List.map_map]
    exact List.map_congr_left fun x hx => hsp.sameTime x hx
  have hsorted1 : (pairs.map Prod.fst).Pairwise fun a b => a.t < b.t :=
    List.pairwise_map.mpr hsp.sorted
  have hsorted2 : (pairs.map Prod.snd).Pairwise fun a b => a.t < b.t :=
    List.pairwise_map.mpr (hsp.sorted.imp_of_mem fun ha hb h => by
      rwa [← hsp.sameTime _ ha, ← hsp.sameTime _ hb])
  have hfirst1 : firstT (pairs.map Prod.fst) = inter.lower := by
    obtain ⟨p, ps, rfl⟩ := List.exists_cons_of_ne_nil hne
    exact hsp.first rfl p rfl
  have hlast1 : lastT (pairs.map Prod.fst) = inter.upper := by
    obtain ⟨p, hp⟩ := Option.isSome_iff_exists.mp (List.getLast?_isSome.mpr hne)
    simp [lastT, List.getLast?_map, hp, hsp.last p hp]
  have hne1 : pairs.map Prod.fst ≠ [] := by simpa using hne
  have hne2 : pairs.map Prod.snd ≠ [] := by simpa using hne
  have hlen1 : 2 ≤ (pairs.map Prod.fst).length := two_le_length_of_firstT_lt_lastT (by omega)
  have hlen2 : 2 ≤ (pairs.map Prod.snd).length := by simpa using hlen1
  have hcov1 : ∀ s ∈ seq1.instants, inter.lower ≤ s.t → s.t ≤ inter.upper →
      ∃ x ∈ pairs.map Prod.fst, x.t = s.t := fun s hsm hl hu => by
    obtain ⟨x, hx, hxt⟩ := hsp.covers1 s hsm hl hu (by simp)
    exact ⟨x.1, List.mem_map_of_mem _ hx, hxt⟩
  have hcov2 : ∀ s ∈ seq2.instants, inter.lower ≤ s.t → s.t ≤ inter.upper →
      ∃ x ∈ pairs.map Prod.snd, x.t = s.t := fun s hsm hl hu => by
    obtain ⟨x, hx, hxt⟩ := hsp.covers2 s hsm hl hu (by simp)
    exact ⟨x.2, List.mem_map_of_mem _ hx, (hsp.sameTime x hx).symm.trans hxt⟩
  have hmk1 : tsequenceMake bt bx (synchronizeStepEnd seq1.linear inter.upperInc (pairs.map Prod.fst))
      inter.lowerInc inter.upperInc seq1.linear false = .ok _ :=
    tsequenceMake_synchronizeStepEnd hlen1 hsorted1.chain'
  have hmk2 : tsequenceMake bt bx (synchronizeStepEnd seq2.linear inter.upperInc (pairs.map Prod.snd))
      inter.lowerInc inter.upperInc seq2.linear false = .ok _ :=
    tsequenceMake_synchronizeStepEnd hlen2 hsorted2.chain'
  refine ⟨_, _, ?_, tsequenceMake_wellFormed hmk1, tsequenceMake_wellFormed hmk2, ?_, ?_, ?_, ?_, ?_⟩
  · unfold synchronizeTsequenceTsequence
    rw [hinter]
    dsimp only
    rw [if_neg hLU.ne]
    split
    · next f1 t1 f2 t2 heq1 heq2 =>
      rw [h1, List.cons.injEq] at heq1
      rw [h2, List.cons.injEq] at heq2
      obtain ⟨rfl, -⟩ := heq1
      obtain ⟨rfl, -⟩ := heq2
      simp only [hstart, bind, Except.bind, hloop, hmk1, hmk2]
      rfl
    · next hnot => exact absurd (hnot _ _ _ _ h1 h2) id
  · rw [synchronizeStepEnd_map_t, synchronizeStepEnd_map_t, hsame]
  · exact periodOf_eq_of_bounds ((firstT_eq_of_map_t (synchronizeStepEnd_map_t _ _ _)).trans hfirst1)
      ((lastT_eq_of_map_t (synchronizeStepEnd_map_t _ _ _)).trans hlast1)
  · exact periodOf_eq_of_bounds ((firstT_eq_of_map_t ((synchronizeStepEnd_map_t _ _ _).trans
      hsame.symm)).trans hfirst1) ((lastT_eq_of_map_t ((synchronizeStepEnd_map_t _ _ _).trans
      hsame.symm)).trans hlast1)
  · intro s hs hc
    obtain ⟨hl, hu⟩ := bounds_of_containsPeriodTimestamp hc
    rw [synchronizeStepEnd_map_t]
    rcases List.mem_append.mp hs with hs | hs
    · obtain ⟨x, hx, hxt⟩ := hcov1 s hs hl hu
      exact hxt ▸ List.mem_map_of_mem _ hx
    · obtain ⟨x, hx, hxt⟩ := hcov2 s hs hl hu
      exact hsame ▸ hxt ▸ List.mem_map_of_mem _ hx
  · intro t ht
    obtain ⟨hc1, hc2⟩ := (intersectionPeriodPeriod_contains hinter t).mp ht
    refine ⟨valueAt_synchronized hwf1 hbt1 hsorted1 (fun x hx => ?_) hfirst1 hlast1 hne1 hcov1 _ ht hc1,
      valueAt_synchronized hwf2 hbt2 hsorted2 (fun x hx => ?_)
        ((firstT_eq_of_map_t hsame).symm.trans hfirst1) ((lastT_eq_of_map_t hsame).symm.trans hlast1)
        hne2 hcov2 _ ht hc2⟩
    · obtain ⟨p, hp, rfl⟩ := List.mem_map.mp hx
      exact hsp.on1 p hp
    · obtain ⟨p, hp, rfl⟩ := List.mem_map.mp hx
      exact hsp.on2 p hp

/-- `synchronize_tsequence_tsequence` on two valid sequences whose periods intersect in
`inter`, with every crossing strictly inside its segments when crossings are asked for,
returns two sequences synchronizing them over `inter`. -/
theorem synchronize_tsequence_tsequence_correct {bt : BaseType V} {bx : BBoxOps V B}
    {seq1 seq2 : TSequence V B} {inter : Period} (crossings : Bool)
    (hbt1 : seq1.linear = true → LawfulBaseType bt) (hbt2 : seq2.linear = true → LawfulBaseType bt)
    (hv1 : seq1.Valid bt bx) (hv2 : seq2.Valid bt bx)
    (hinter : intersectionPeriodPeriod seq1.period seq2.period = some inter)
    (hcross : crossings = true → CrossingsInside bt seq1 seq2 inter.lower inter.upper) :
    ∃ sync1 sync2, synchronizeTsequenceTsequence bt bx seq1 seq2 crossings = .ok (some (sync1, sync2)) ∧
      Synchronized bt seq1 seq2 inter sync1 sync2 := by
  rcases intersectionPeriodPeriod_valid hv1.wellFormed.periodValid hv2.wellFormed.periodValid
    hinter with hLU | ⟨hLU, hli, hui⟩
  · exact synchronizeTsequenceTsequence_of_lt crossings hbt1 hbt2 hv1.wellFormed hv2.wellFormed
      hinter hLU hcross
  · exact synchronizeTsequenceTsequence_instant crossings hv1.wellFormed hv2.wellFormed hinter
      hLU hli hui

/-- The linear float sequences `[0@0, 10@10]` and `[11@0, 1@10]` are valid, their only
merged timestamps are 0 and 10, and the crossing `tsequence_intersection` finds between
them, at 5, is inside the segments; so they are synchronized over `[0, 10]` with
crossings. -/
theorem synchronize_tsequence_tsequence_correct_crossing :
    (⟨[⟨0, 0⟩, ⟨10, 10⟩], ⟨0, 10, true, true⟩, true, ⟨0, 10, 0, 10⟩⟩ : TSequence ℚ TBox).Valid
      (tfloat 0) (tnumberBBox id) ∧
    (⟨[⟨11, 0⟩, ⟨1, 10⟩], ⟨0, 10, true, true⟩, true, ⟨1, 11, 0, 10⟩⟩ : TSequence ℚ TBox).Valid
      (tfloat 0) (tnumberBBox id) ∧
    CrossingsInside (tfloat 0)
      (⟨[⟨0, 0⟩, ⟨10, 10⟩], ⟨0, 10, true, true⟩, true, ⟨0, 10, 0, 10⟩⟩ : TSequence ℚ TBox)
      ⟨[⟨11, 0⟩, ⟨1, 10⟩], ⟨0, 10, true, true⟩, true, ⟨1, 11, 0, 10⟩⟩ 0 10 ∧
    ∃ sync1 sync2, synchronizeTsequenceTsequence (tfloat 0) (tnumberBBox id)
        ⟨[⟨0, 0⟩, ⟨10, 10⟩], ⟨0, 10, true, true⟩, true, ⟨0, 10, 0, 10⟩⟩
        ⟨[⟨11, 0⟩, ⟨1, 10⟩], ⟨0, 10, true, true⟩, true, ⟨1, 11, 0, 10⟩⟩ true =
          .ok (some (sync1, sync2)) ∧
      Synchronized (tfloat 0) ⟨[⟨0, 0⟩, ⟨10, 10⟩], ⟨0, 10, true, true⟩, true, ⟨0, 10, 0, 10⟩⟩
        ⟨[⟨11, 0⟩, ⟨1, 10⟩], ⟨0, 10, true, true⟩, true, ⟨1, 11, 0, 10⟩⟩ ⟨0, 10, true, true⟩
        sync1 sync2 := by
  have hv1 : (⟨[⟨0, 0⟩, ⟨10, 10⟩], ⟨0, 10, true, true⟩, true, ⟨0, 10, 0, 10⟩⟩ :
      TSequence ℚ TBox).Valid (tfloat 0) (tnumberBBox id) := by
    simp [TSequence.valid_iff, lastTwo?, periodOf, lastT, tinstantarrNormalize,
      tinstantarrNormalizeLoop, tnumberBBox, tboxExpand]
  have hv2 : (⟨[⟨11, 0⟩, ⟨1, 10⟩], ⟨0, 10, true, true⟩, true, ⟨1, 11, 0, 10⟩⟩ :
      TSequence ℚ TBox).Valid (tfloat 0) (tnumberBBox id) := by
    simp [TSequence.valid_iff, lastTwo?, periodOf, lastT, tinstantarrNormalize,
      tinstantarrNormalizeLoop, tnumberBBox, tboxExpand]
  have hcross : CrossingsInside (tfloat 0)
      (⟨[⟨0, 0⟩, ⟨10, 10⟩], ⟨0, 10, true, true⟩, true, ⟨0, 10, 0, 10⟩⟩ : TSequence ℚ TBox)
      ⟨[⟨11, 0⟩, ⟨1, 10⟩], ⟨0, 10, true, true⟩, true, ⟨1, 11, 0, 10⟩⟩ 0 10 := by
    rintro ⟨va1, ta1⟩ ⟨vb1, tb1⟩ ⟨va2, ta2⟩ ⟨vb2, tb2⟩ ha1 hb1 ha2 hb2 h12 hb12
      ⟨-, -, hao⟩ ⟨-, -, hbo⟩ hab - r hr
    dsimp only at *
    obtain ⟨rfl, rfl⟩ : ta1 = 0 ∧ tb1 = 10 := by
      simp at hao hbo
      omega
    subst h12 hb12
    simp [LiesOn, instantsValueAt, tsequenceValueAtTimestamp1] at ha1 hb1 ha2 hb2
    subst ha1 hb1 ha2 hb2
    have h5 : longOfDouble (11 / 2) = 5 := by
      rw [longOfDouble_of_nonneg (by norm_num), Int.floor_eq_iff]
      norm_num
    norm_num [tsequenceIntersection, tfloat, tnumberseqIntersection,
      tnumberseqIntersectionFraction2] at hr
    rw [← hr, h5]
    decide
  exact ⟨hv1, hv2, hcross, synchronize_tsequence_tsequence_correct true (fun _ => tfloat_lawful 0)
    (fun _ => tfloat_lawful 0) hv1 hv2 (by decide) fun _ => hcross⟩

end TemporalSequence
