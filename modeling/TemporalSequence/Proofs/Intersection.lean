import TemporalSequence.Intersection
import TemporalSequence.Proofs.NormalizeArray
import TemporalSequence.Proofs.Restriction
import TemporalSequence.Proofs.SyncLoop

/-!
# Restriction to a timestamp set and temporal intersections

The functions of this part skip work on sorted inputs: `tsequence_at_timestampset`
tests the boxes and starts at the first timestamp not before the sequence, the loop of
`intersection_tsequence_tinstantset` stops at the first instant after the sequence,
and `tsequence_value_at_timestamp_inc` reads the bound instants directly. Each is
shown equal to the plain definition from the values of the sequence; the intersection
with an instant set returns the instants of the set.
-/

namespace TemporalSequence

variable {V B : Type} [DecidableEq V] {bt : BaseType V} {seq : TSequence V B}

/-! ## Timestamp sets -/

lemma le_getLast?_getD_of_mem {ts : List ℤ} (hs : ts.Pairwise (· < ·)) {t : ℤ} (ht : t ∈ ts) :
    t ≤ ts.getLast?.getD 0 := by
  induction ts generalizing t with
  | nil => cases ht
  | cons a ts ih =>
    cases ts with
    | nil => simp_all
    | cons b ts =>
      rw [List.getLast?_cons_cons]
      rcases List.mem_cons.mp ht with rfl | ht
      · exact (List.rel_of_pairwise_cons hs (List.mem_cons_self _ _)).le.trans
          (ih hs.of_cons (List.mem_cons_self _ _))
      · exact ih hs.of_cons ht

lemma TimestampSet.contains_bbox (ts : TimestampSet) {t : ℤ} (ht : t ∈ ts.times) :
    containsPeriodTimestamp (timestampsetBbox ts) t = true := by
  have hs := List.chain'_iff_pairwise.mp ts.increasing
  have hl := le_getLast?_getD_of_mem hs ht
  obtain ⟨t0, rest, h⟩ := List.exists_cons_of_ne_nil ts.nonempty
  rw [h] at ht hs hl
  have h0 : t0 ≤ t := by
    rcases List.mem_cons.mp ht with rfl | ht
    · exact le_rfl
    · exact (List.rel_of_pairwise_cons hs ht).le
  simp only [containsPeriodTimestamp_iff, timestampsetBbox, h, List.head?_cons, Option.getD_some,
    true_and]
  omega

lemma drop_length_takeWhile {α : Type} (p : α → Bool) (l : List α) :
    l.drop (l.takeWhile p).length = l.dropWhile p := by
  induction l with
  | nil => rfl
  | cons a l ih => by_cases h : p a <;> simp [List.takeWhile_cons, List.dropWhile_cons, h, ih]

lemma filterMap_eq_ite_mem {α β : Type} [DecidableEq α] {f : α → Option β} {a : α} {b : β}
    (hf : ∀ x, f x = if x = a then some b else none) {l : List α} (hl : l.Nodup) :
    l.filterMap f = if a ∈ l then [b] else [] := by
  induction l with
  | nil => simp
  | cons x l ih =>
    obtain ⟨hx, hl⟩ := List.nodup_cons.mp hl
    rw [List.filterMap_cons, hf, ih hl]
    by_cases hxa : x = a
    · subst hxa
      simp [hx]
    · simp [hxa, Ne.symm hxa]

lemma valueAt_of_instants_eq_singleton (hwf : seq.WellFormed) {inst : TInstant V}
    (hi : seq.instants = [inst]) (t : ℤ) :
    seq.valueAt bt t = if t = inst.t then some inst.value else none := by
  obtain ⟨inst', hi', hper⟩ := hwf.period_of_length_one (by simp [hi])
  obtain rfl : inst' = inst := by simpa [hi] using hi'.symm
  by_cases ht : t = inst'.t
  · subst ht
    simp [TSequence.valueAt, hper, hi, containsPeriodTimestamp, instantsValueAt]
  · simp [TSequence.valueAt, hper, hi, containsPeriodTimestamp, instantsValueAt, ht]

/-- The instants `tsequence_at_timestampset` returns, read from the values of the sequence. -/
lemma tsequenceAtTimestampset_getD (hwf : seq.WellFormed) (ts : TimestampSet) :
    (tsequenceAtTimestampset bt seq ts).getD [] =
      ts.times.filterMap fun t => (seq.valueAt bt t).map fun value => ⟨value, t⟩ := by
  have hs := List.chain'_iff_pairwise.mp ts.increasing
  by_cases ho : overlapsPeriodPeriod seq.period (timestampsetBbox ts) = true
  swap
  · rw [tsequenceAtTimestampset, if_pos (by simpa using ho)]
    refine (List.filterMap_eq_nil_iff.mpr fun t ht => ?_).symm
    rw [TSequence.valueAt_of_not_contains ?_, Option.map_none']
    cases hc : containsPeriodTimestamp seq.period t
    · rfl
    · exact absurd (overlapsPeriodPeriod_of_contains hc (ts.contains_bbox ht)) ho
  rw [tsequenceAtTimestampset, if_neg (by simpa using ho)]
  match hi : seq.instants with
  | [] => exact absurd hi hwf.nonempty
  | [inst] =>
    rw [filterMap_eq_ite_mem (a := inst.t) (b := inst) (fun t => by
      rw [valueAt_of_instants_eq_singleton hwf hi]
      split_ifs with h
      · subst h
        rfl
      · rfl) hs.nodup]
    by_cases hm : inst.t ∈ ts.times <;> simp [containsTimestampsetTimestamp, hm]
  | _ :: _ :: _ =>
    rw [Option.getD_some, timestampsetFindTimestamp, drop_length_takeWhile,
      List.filterMap_congr fun t _ => tsequenceAtTimestamp_eq_valueAt bt hwf t]
    conv_rhs => rw [← List.takeWhile_append_dropWhile
      (fun t => decide (t < max seq.period.lower (timestampsetBbox ts).lower)) ts.times,
      List.filterMap_append]
    rw [(List.filterMap_eq_nil_iff (l := List.takeWhile _ ts.times)).mpr fun t ht => ?_,
      List.nil_append]
    have htm : t < max seq.period.lower (timestampsetBbox ts).lower := by
      simpa using List.mem_takeWhile_imp ht
    have hbox := bounds_of_containsPeriodTimestamp
      (ts.contains_bbox ((List.takeWhile_sublist _).subset ht))
    rw [TSequence.valueAt_of_lt_lower (by omega), Option.map_none']

/-- On a well-formed sequence, `tsequence_at_timestampset` gives the instants of the
sequence at the timestamps of the set where it is defined, in the order of the set:
the box test, the instantaneous sequence and the start at the first timestamp not
before the sequence skip only timestamps where it is not defined. -/
theorem tsequenceAtTimestampset_eq_filterMap (hwf : seq.WellFormed) (ts : TimestampSet) :
    (tsequenceAtTimestampset bt seq ts).getD [] =
      ts.times.filterMap fun t => (seq.valueAt bt t).map fun value => ⟨value, t⟩ :=
  tsequenceAtTimestampset_getD hwf ts

/-- The linear float sequence `[0@0, 4@4)` at the timestamps 1, 4 and 6. -/
theorem tsequenceAtTimestampset_eq_filterMap_line :
    (⟨[⟨0, 0⟩, ⟨4, 4⟩], ⟨0, 4, true, false⟩, true, ⟨0, 4, 0, 4⟩⟩ : TSequence ℚ TBox).WellFormed ∧
    (tsequenceAtTimestampset (tfloat 0) (⟨[⟨0, 0⟩, ⟨4, 4⟩], ⟨0, 4, true, false⟩, true, ⟨0, 4, 0, 4⟩⟩ : TSequence ℚ TBox)
        ⟨[1, 4, 6], List.cons_ne_nil _ _,
          List.chain'_cons.mpr ⟨by decide, List.chain'_cons.mpr ⟨by decide, List.chain'_singleton _⟩⟩⟩).getD [] =
      [(1 : ℤ), 4, 6].filterMap fun t =>
        ((⟨[⟨0, 0⟩, ⟨4, 4⟩], ⟨0, 4, true, false⟩, true, ⟨0, 4, 0, 4⟩⟩ : TSequence ℚ TBox).valueAt (tfloat 0) t).map
          fun value => ⟨value, t⟩ := by
  have hwf : (⟨[⟨0, 0⟩, ⟨4, 4⟩], ⟨0, 4, true, false⟩, true, ⟨0, 4, 0, 4⟩⟩ :
      TSequence ℚ TBox).WellFormed := ⟨by simp, by simp, rfl, by simp, by simp⟩
  exact ⟨hwf, tsequenceAtTimestampset_eq_filterMap hwf _⟩

/-! ## Values at inclusive bounds -/

lemma instantsValueAt_of_lastT_lt {linear : Bool} {instants : List (TInstant V)}
    (hs : instants.Pairwise fun inst1 inst2 => inst1.t < inst2.t) {t : ℤ} (ht : lastT instants < t) :
    instantsValueAt bt linear instants t = none := by
  induction instants with
  | nil => rfl
  | cons a rest ih =>
    match rest, hs, ih, ht with
    | [], _, _, ht =>
      simp only [lastT_singleton] at ht
      simp [instantsValueAt, ht.ne']
    | b :: rest, hs, ih, ht =>
      have hb := le_lastT_of_mem hs.of_cons (List.mem_cons_self b rest)
      rw [lastT_cons_cons] at ht
      rw [instantsValueAt_cons_cons, if_neg (by omega)]
      exact ih hs.of_cons ht

/-- On a well-formed sequence, `tsequence_value_at_timestamp_inc` is the value of the
instant array, which ignores the bound flags: the value of the sequence inside its
period, and the value of the first or last instant at the lower or upper bound, even
an exclusive one. -/
theorem tsequenceValueAtTimestampInc_eq (hwf : seq.WellFormed) (t : ℤ) :
    tsequenceValueAtTimestampInc bt seq t = instantsValueAt bt seq.linear seq.instants t := by
  have hs := chain'_t_iff_pairwise.mp hwf.increasing
  have hlow := hwf.lower_eq
  have hup := hwf.upper_eq
  unfold tsequenceValueAtTimestampInc
  match hi : seq.instants, hs with
  | [], _ => exact absurd hi hwf.nonempty
  | inst :: rest, hs =>
    dsimp only
    by_cases h1 : rest = [] ∨ inst.t = t
    · rw [if_pos h1, tinstantValueAtTimestamp]
      rcases h1 with rfl | rfl
      · simp [instantsValueAt, eq_comm]
      · rw [if_pos rfl, instantsValueAt_head hs]
    rw [if_neg h1]
    obtain ⟨last, hlast⟩ := Option.isSome_iff_exists.mp
      (List.getLast?_isSome.mpr (List.cons_ne_nil inst rest))
    obtain ⟨init, hinit⟩ := List.getLast?_eq_some_iff.mp hlast
    rw [hlast]
    dsimp only
    by_cases h2 : last.t = t
    · rw [if_pos h2, tinstantValueAtTimestamp, if_pos h2, hinit, ← h2,
        instantsValueAt_append_last (hinit ▸ hs)]
    rw [if_neg h2, tsequenceValueAtTimestamp_eq_valueAt bt hwf, TSequence.valueAt, hi]
    rw [hi, firstT_cons] at hlow
    rw [hi, lastT, hlast] at hup
    simp only [Option.map_some', Option.getD_some] at hup
    by_cases hc : containsPeriodTimestamp seq.period t = true
    · rw [if_pos hc]
    rw [if_neg hc]
    rw [containsPeriodTimestamp_iff] at hc
    push_neg at h1
    rcases lt_or_gt_of_ne h1.2 with h | h
    · rcases lt_or_gt_of_ne h2 with h' | h'
      · exact (instantsValueAt_of_lastT_lt hs (by rw [hinit, lastT, List.getLast?_concat]; simpa using h')).symm
      · exact absurd ⟨.inl (hlow ▸ h), .inl (hup ▸ h')⟩ hc
    · exact (instantsValueAt_of_lt hs h).symm

/-- The linear float sequence `[0@0, 4@4)` read at its exclusive upper bound. -/
theorem tsequenceValueAtTimestampInc_eq_line :
    (⟨[⟨0, 0⟩, ⟨4, 4⟩], ⟨0, 4, true, false⟩, true, ⟨0, 4, 0, 4⟩⟩ : TSequence ℚ TBox).WellFormed ∧
    tsequenceValueAtTimestampInc (tfloat 0) (⟨[⟨0, 0⟩, ⟨4, 4⟩], ⟨0, 4, true, false⟩, true, ⟨0, 4, 0, 4⟩⟩ : TSequence ℚ TBox) 4 =
      instantsValueAt (tfloat 0) true [⟨0, 0⟩, ⟨4, 4⟩] 4 := by
  have hwf : (⟨[⟨0, 0⟩, ⟨4, 4⟩], ⟨0, 4, true, false⟩, true, ⟨0, 4, 0, 4⟩⟩ :
      TSequence ℚ TBox).WellFormed := ⟨by simp, by simp, rfl, by simp, by simp⟩
  exact ⟨hwf, tsequenceValueAtTimestampInc_eq hwf 4⟩

/-! ## Intersections -/

/-- The loop of `intersection_tsequence_tinstantset` over instants in time order pairs
the instant of the sequence with each instant in the period of the sequence: stopping at
the first instant after the period drops none of them. -/
lemma intersectionTsequenceTinstantsetLoop_eq {instants : List (TInstant V)}
    (hs : instants.Pairwise fun inst1 inst2 => inst1.t < inst2.t) :
    intersectionTsequenceTinstantsetLoop bt seq instants =
      (instants.filter fun inst => containsPeriodTimestamp seq.period inst.t).map
        fun inst => (tsequenceAtTimestamp bt seq inst.t, inst) := by
  induction instants with
  | nil => rfl
  | cons inst rest ih =>
    rw [intersectionTsequenceTinstantsetLoop, List.filter_cons]
    have hrest : seq.period.upper < inst.t →
        (rest.filter fun inst => containsPeriodTimestamp seq.period inst.t) = [] := fun hu =>
      List.filter_eq_nil_iff.mpr fun r hr hc => absurd
        ((bounds_of_containsPeriodTimestamp hc).2.trans_lt (hu.trans (List.rel_of_pairwise_cons hs hr)))
        (lt_irrefl _)
    by_cases hu : seq.period.upper < inst.t
    · rw [if_pos hu, hrest hu]
      split_ifs <;> rfl
    · rw [if_neg hu, ih hs.of_cons]
      split_ifs <;> rfl

/-- On a well-formed sequence, `intersection_tsequence_tinstantset` keeps the instants of
the set in the period of the sequence, each paired with the instant of the sequence at
its timestamp, and fails when there are none: the box test and the early stop of its
loop lose nothing. -/
theorem intersectionTsequenceTinstantset_eq (hwf : seq.WellFormed) (ti : TInstantSet V) :
    intersectionTsequenceTinstantset bt seq ti =
      if ti.instants.filter (fun inst => containsPeriodTimestamp seq.period inst.t) = [] then none
      else some ((ti.instants.filter fun inst => containsPeriodTimestamp seq.period inst.t).map
          (fun inst => (seq.valueAt bt inst.t).map fun value => ⟨value, inst.t⟩),
        ti.instants.filter fun inst => containsPeriodTimestamp seq.period inst.t) := by
  have hs := chain'_t_iff_pairwise.mp ti.increasing
  rw [intersectionTsequenceTinstantset]
  by_cases ho : overlapsPeriodPeriod seq.period (tinstantsetPeriod ti) = true
  swap
  · have hnil : (ti.instants.filter fun inst => containsPeriodTimestamp seq.period inst.t) = [] := by
      refine List.filter_eq_nil_iff.mpr fun r hr hc => ho (overlapsPeriodPeriod_of_contains hc ?_)
      obtain ⟨first, rest, h⟩ := List.exists_cons_of_ne_nil ti.nonempty
      have h1 := head_le_of_mem (h ▸ hs) (h ▸ hr)
      have h2 := le_lastT_of_mem hs hr
      simp only [containsPeriodTimestamp_iff, tinstantsetPeriod, h, firstT_cons, true_and] at h2 ⊢
      omega
    rw [if_pos (by simpa using ho), if_pos hnil]
  rw [if_neg (by simpa using ho), intersectionTsequenceTinstantsetLoop_eq hs]
  simp only [List.map_eq_nil_iff, List.map_map]
  split_ifs
  · rfl
  · refine congrArg some (Prod.ext (List.map_congr_left fun inst _ => ?_) (List.map_id' _))
    exact tsequenceAtTimestamp_eq_valueAt bt hwf inst.t

/-- The linear float sequence `[0@0, 4@4)` and the instant set `{1@1, 5@5}`. -/
theorem intersectionTsequenceTinstantset_eq_line :
    (⟨[⟨0, 0⟩, ⟨4, 4⟩], ⟨0, 4, true, false⟩, true, ⟨0, 4, 0, 4⟩⟩ : TSequence ℚ TBox).WellFormed ∧
    intersectionTsequenceTinstantset (tfloat 0) (⟨[⟨0, 0⟩, ⟨4, 4⟩], ⟨0, 4, true, false⟩, true, ⟨0, 4, 0, 4⟩⟩ : TSequence ℚ TBox)
        ⟨[⟨1, 1⟩, ⟨5, 5⟩], List.cons_ne_nil _ _,
          List.chain'_cons.mpr ⟨by decide, List.chain'_singleton _⟩⟩ =
      if [(⟨1, 1⟩ : TInstant ℚ), ⟨5, 5⟩].filter (fun inst => containsPeriodTimestamp
          ⟨0, 4, true, false⟩ inst.t) = [] then none
      else some (([(⟨1, 1⟩ : TInstant ℚ), ⟨5, 5⟩].filter fun inst => containsPeriodTimestamp
          ⟨0, 4, true, false⟩ inst.t).map (fun inst =>
            ((⟨[⟨0, 0⟩, ⟨4, 4⟩], ⟨0, 4, true, false⟩, true, ⟨0, 4, 0, 4⟩⟩ : TSequence ℚ TBox).valueAt (tfloat 0) inst.t).map
              fun value => ⟨value, inst.t⟩),
        [(⟨1, 1⟩ : TInstant ℚ), ⟨5, 5⟩].filter fun inst => containsPeriodTimestamp
          ⟨0, 4, true, false⟩ inst.t) := by
  have hwf : (⟨[⟨0, 0⟩, ⟨4, 4⟩], ⟨0, 4, true, false⟩, true, ⟨0, 4, 0, 4⟩⟩ :
      TSequence ℚ TBox).WellFormed := ⟨by simp, by simp, rfl, by simp, by simp⟩
  exact ⟨hwf, intersectionTsequenceTinstantset_eq hwf _⟩

lemma overlapsPeriodPeriod_intersection {p1 p2 inter : Period} (hv1 : p1.Valid) (hv2 : p2.Valid)
    (h : intersectionPeriodPeriod p1 p2 = some inter) :
    overlapsPeriodPeriod p1 inter = true ∧ overlapsPeriodPeriod p2 inter = true := by
  simp only [intersectionPeriodPeriod, Option.ite_none_right_eq_some, Option.some.injEq] at h
  obtain ⟨ho, rfl⟩ := h
  obtain ⟨l1, u1, _ | _, _ | _⟩ := p1 <;> obtain ⟨l2, u2, _ | _, _ | _⟩ := p2 <;>
    simp [Period.Valid, overlapsPeriodPeriod] at * <;> omega

/-- On two well-formed sequences, `intersection_tsequence_tsequence` succeeds, with a
result exactly when their periods overlap: then both restrictions exist, and each is its
sequence restricted to the period of the other, so that the two are defined at the same
timestamps. -/
theorem intersectionTsequenceTsequence_spec (bx : BBoxOps V B) {seq1 seq2 : TSequence V B}
    (hbt1 : seq1.linear = true → LawfulBaseType bt) (hbt2 : seq2.linear = true → LawfulBaseType bt)
    (hwf1 : seq1.WellFormed) (hwf2 : seq2.WellFormed) :
    ∃ res, intersectionTsequenceTsequence bt bx seq1 seq2 = .ok res ∧
      res.isSome = overlapsPeriodPeriod seq1.period seq2.period ∧
      ∀ inters ∈ res, ∃ inter1 inter2, inters = (some inter1, some inter2) ∧
        inter1.WellFormed ∧ inter2.WellFormed ∧ ∀ t,
          inter1.valueAt bt t =
              (if containsPeriodTimestamp seq2.period t then seq1.valueAt bt t else none) ∧
            inter2.valueAt bt t =
              if containsPeriodTimestamp seq1.period t then seq2.valueAt bt t else none := by
  cases hi : intersectionPeriodPeriod seq1.period seq2.period with
  | none =>
    refine ⟨none, by simp [intersectionTsequenceTsequence, hi, pure, Except.pure], ?_, by simp⟩
    cases ho : overlapsPeriodPeriod seq1.period seq2.period
    · rfl
    · obtain ⟨inter, h⟩ := intersectionPeriodPeriod_isSome ho
      simp [hi] at h
  | some inter =>
    have hv := intersectionPeriodPeriod_valid hwf1.periodValid hwf2.periodValid hi
    obtain ⟨ho1, ho2⟩ := overlapsPeriodPeriod_intersection hwf1.periodValid hwf2.periodValid hi
    obtain ⟨res1, hres1, hsome1, hw1, hval1⟩ := tsequenceAtPeriod_valueAt bt bx hbt1 hwf1 hv
    obtain ⟨res2, hres2, hsome2, hw2, hval2⟩ := tsequenceAtPeriod_valueAt bt bx hbt2 hwf2 hv
    rw [ho1] at hsome1
    rw [ho2] at hsome2
    obtain ⟨r1, rfl⟩ := Option.isSome_iff_exists.mp hsome1
    obtain ⟨r2, rfl⟩ := Option.isSome_iff_exists.mp hsome2
    have hc : ∀ t, containsPeriodTimestamp inter t =
        (containsPeriodTimestamp seq1.period t && containsPeriodTimestamp seq2.period t) := fun t =>
      Bool.eq_iff_iff.mpr (by rw [Bool.and_eq_true]; exact intersectionPeriodPeriod_contains hi t)
    have hover : overlapsPeriodPeriod seq1.period seq2.period = true := by
      simp only [intersectionPeriodPeriod, Option.ite_none_right_eq_some] at hi
      exact hi.1
    refine ⟨some (some r1, some r2), by simp [intersectionTsequenceTsequence, hi, hres1, hres2, bind,
      Except.bind, pure, Except.pure], by rw [hover]; rfl, fun inters h => ⟨r1, r2,
      (Option.some.inj h).symm, (hw1 r1 rfl).1, (hw2 r2 rfl).1, fun t => ⟨?_, ?_⟩⟩⟩
    · rw [← Option.some_bind r1 fun r => r.valueAt bt t, hval1 t, hc]
      cases hc1 : containsPeriodTimestamp seq1.period t
      · simp [TSequence.valueAt_of_not_contains hc1]
      · simp
    · rw [← Option.some_bind r2 fun r => r.valueAt bt t, hval2 t, hc]
      cases hc2 : containsPeriodTimestamp seq2.period t
      · simp [TSequence.valueAt_of_not_contains hc2]
      · simp

/-- The linear float sequences `[0@0, 4@4)` and `[3@2, 1@6]`. -/
theorem intersectionTsequenceTsequence_spec_lines :
    (⟨[⟨0, 0⟩, ⟨4, 4⟩], ⟨0, 4, true, false⟩, true, ⟨0, 4, 0, 4⟩⟩ : TSequence ℚ TBox).WellFormed ∧
    (⟨[⟨3, 2⟩, ⟨1, 6⟩], ⟨2, 6, true, true⟩, true, ⟨1, 3, 2, 6⟩⟩ : TSequence ℚ TBox).WellFormed ∧
    ∃ res, intersectionTsequenceTsequence (tfloat 0) (tnumberBBox id) (⟨[⟨0, 0⟩, ⟨4, 4⟩], ⟨0, 4, true, false⟩, true, ⟨0, 4, 0, 4⟩⟩ : TSequence ℚ TBox)
        ⟨[⟨3, 2⟩, ⟨1, 6⟩], ⟨2, 6, true, true⟩, true, ⟨1, 3, 2, 6⟩⟩ = .ok res ∧
      res.isSome = overlapsPeriodPeriod ⟨0, 4, true, false⟩ ⟨2, 6, true, true⟩ ∧
      ∀ inters ∈ res, ∃ inter1 inter2, inters = (some inter1, some inter2) ∧
        inter1.WellFormed ∧ inter2.WellFormed ∧ ∀ t,
          inter1.valueAt (tfloat 0) t = (if containsPeriodTimestamp ⟨2, 6, true, true⟩ t then
              (⟨[⟨0, 0⟩, ⟨4, 4⟩], ⟨0, 4, true, false⟩, true, ⟨0, 4, 0, 4⟩⟩ : TSequence ℚ TBox).valueAt (tfloat 0) t else none) ∧
            inter2.valueAt (tfloat 0) t = if containsPeriodTimestamp ⟨0, 4, true, false⟩ t then
              (⟨[⟨3, 2⟩, ⟨1, 6⟩], ⟨2, 6, true, true⟩, true, ⟨1, 3, 2, 6⟩⟩ : TSequence ℚ TBox).valueAt
                (tfloat 0) t else none := by
  have hwf : (⟨[⟨0, 0⟩, ⟨4, 4⟩], ⟨0, 4, true, false⟩, true, ⟨0, 4, 0, 4⟩⟩ :
      TSequence ℚ TBox).WellFormed := ⟨by simp, by simp, rfl, by simp, by simp⟩
  have hwf2 : (⟨[⟨3, 2⟩, ⟨1, 6⟩], ⟨2, 6, true, true⟩, true, ⟨1, 3, 2, 6⟩⟩ :
      TSequence ℚ TBox).WellFormed := ⟨by simp, by simp, rfl, by simp, by simp⟩
  exact ⟨hwf, hwf2, intersectionTsequenceTsequence_spec (tnumberBBox id) (fun _ => tfloat_lawful 0)
    (fun _ => tfloat_lawful 0) hwf hwf2⟩

/-! ## Intersects functions -/

/-- On a well-formed sequence, the intersects functions answer whether the matching
restriction has something: `tsequence_intersects_timestamp` whether
`tsequence_at_timestamp` finds an instant, `tsequence_intersects_timestampset` whether
`tsequence_at_timestampset` keeps an instant, and `tsequence_intersects_period`, for a
valid period, whether `tsequence_at_period` returns a sequence. -/
theorem tsequenceIntersects_eq_restrict (bx : BBoxOps V B)
    (hbt : seq.linear = true → LawfulBaseType bt) (hwf : seq.WellFormed) :
    (∀ t, tsequenceIntersectsTimestamp seq t = (tsequenceAtTimestamp bt seq t).isSome) ∧
    (∀ ts, tsequenceIntersectsTimestampset seq ts =
      !((tsequenceAtTimestampset bt seq ts).getD []).isEmpty) ∧
    ∀ p, p.Valid → ∃ res, tsequenceAtPeriod bt bx seq p = .ok res ∧
      tsequenceIntersectsPeriod seq p = res.isSome := by
  have htimestamp : ∀ t, tsequenceIntersectsTimestamp seq t = (seq.valueAt bt t).isSome :=
    fun t => (TSequence.valueAt_isSome hwf t).symm
  refine ⟨fun t => ?_, fun ts => ?_, fun p hp => ?_⟩
  · rw [tsequenceAtTimestamp_eq_valueAt bt hwf, Option.isSome_map', htimestamp]
  · rw [tsequenceAtTimestampset_getD hwf ts, tsequenceIntersectsTimestampset, Bool.eq_iff_iff]
    simp [List.any_eq_true, List.filterMap_eq_nil_iff, htimestamp, Option.isSome_iff_ne_none]
  · obtain ⟨res, hres, hsome, -⟩ := tsequenceAtPeriod_valueAt bt bx hbt hwf hp
    exact ⟨res, hres, hsome.symm⟩

/-- The linear float sequence `[0@0, 4@4)`. -/
theorem tsequenceIntersects_eq_restrict_line :
    (⟨[⟨0, 0⟩, ⟨4, 4⟩], ⟨0, 4, true, false⟩, true, ⟨0, 4, 0, 4⟩⟩ : TSequence ℚ TBox).WellFormed ∧
    (∀ t, tsequenceIntersectsTimestamp
        (⟨[⟨0, 0⟩, ⟨4, 4⟩], ⟨0, 4, true, false⟩, true, ⟨0, 4, 0, 4⟩⟩ : TSequence ℚ TBox) t =
      (tsequenceAtTimestamp (tfloat 0)
        (⟨[⟨0, 0⟩, ⟨4, 4⟩], ⟨0, 4, true, false⟩, true, ⟨0, 4, 0, 4⟩⟩ : TSequence ℚ TBox) t).isSome) ∧
    (∀ ts, tsequenceIntersectsTimestampset
        (⟨[⟨0, 0⟩, ⟨4, 4⟩], ⟨0, 4, true, false⟩, true, ⟨0, 4, 0, 4⟩⟩ : TSequence ℚ TBox) ts =
      !((tsequenceAtTimestampset (tfloat 0)
        (⟨[⟨0, 0⟩, ⟨4, 4⟩], ⟨0, 4, true, false⟩, true, ⟨0, 4, 0, 4⟩⟩ : TSequence ℚ TBox) ts).getD
          []).isEmpty) ∧
    ∀ p, p.Valid → ∃ res, tsequenceAtPeriod (tfloat 0) (tnumberBBox id)
        (⟨[⟨0, 0⟩, ⟨4, 4⟩], ⟨0, 4, true, false⟩, true, ⟨0, 4, 0, 4⟩⟩ : TSequence ℚ TBox) p = .ok res ∧
      tsequenceIntersectsPeriod
        (⟨[⟨0, 0⟩, ⟨4, 4⟩], ⟨0, 4, true, false⟩, true, ⟨0, 4, 0, 4⟩⟩ : TSequence ℚ TBox) p =
        res.isSome := by
  have hwf : (⟨[⟨0, 0⟩, ⟨4, 4⟩], ⟨0, 4, true, false⟩, true, ⟨0, 4, 0, 4⟩⟩ :
      TSequence ℚ TBox).WellFormed := ⟨by simp, by simp, rfl, by simp, by simp⟩
  exact ⟨hwf, tsequenceIntersects_eq_restrict (tnumberBBox id) (fun _ => tfloat_lawful 0) hwf⟩

end TemporalSequence
