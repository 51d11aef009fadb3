import TemporalSequence.Semantics

/-!
# The binary search of `tsequence_find_timestamp`

A timestamp of the period of a sequence lies in exactly one segment once the bound
flags are read as the search reads them: the first segment carries the lower flag
of the sequence, the last one its upper flag, and every other segment is closed on
the left and open on the right. The search keeps that segment inside its window, so
it returns its index; a timestamp in no segment gives `-1`.
-/

namespace TemporalSequence

variable {V B : Type}

/-- The test of `tsequence_find_timestamp` on the segment `inst1 -> inst2` of index `m`. -/
def segmentHolds (instants : List (TInstant V)) (lowerInc upperInc : Bool) (t m : ℤ)
    (inst1 inst2 : TInstant V) : Prop :=
  inst1.t < t ∧ t < inst2.t ∨ (if m = 0 then lowerInc else true) = true ∧ inst1.t = t ∨
    (if m = instants.length - 2 then upperInc else false) = true ∧ inst2.t = t

instance (instants : List (TInstant V)) (lowerInc upperInc : Bool) (t m : ℤ)
    (inst1 inst2 : TInstant V) : Decidable (segmentHolds instants lowerInc upperInc t m inst1 inst2) :=
  inferInstanceAs (Decidable (_ ∨ _ ∨ _))

lemma segmentHolds_bounds {instants : List (TInstant V)} {lowerInc upperInc : Bool} {t m : ℤ}
    {inst1 inst2 : TInstant V} (h : segmentHolds instants lowerInc upperInc t m inst1 inst2)
    (h12 : inst1.t < inst2.t) :
    inst1.t ≤ t ∧ t ≤ inst2.t ∧ (t = inst2.t → m = instants.length - 2) := by
  rcases h with h | ⟨-, h⟩ | ⟨h, h'⟩
  · omega
  · omega
  · split_ifs at h with hm
    exact ⟨by omega, by omega, fun _ => hm⟩

lemma tsequenceFindTimestampLoop_of_le {instants : List (TInstant V)} {lowerInc upperInc : Bool} {t first last : ℤ}
    {x1 x2 : TInstant V} (hle : first ≤ last)
    (hx1 : instants[((first + last) / 2).toNat]? = some x1)
    (hx2 : instants[((first + last) / 2).toNat + 1]? = some x2) :
    tsequenceFindTimestampLoop instants lowerInc upperInc t first last =
      if segmentHolds instants lowerInc upperInc t ((first + last) / 2) x1 x2 then
        (first + last) / 2
      else if t ≤ x1.t then
        tsequenceFindTimestampLoop instants lowerInc upperInc t first ((first + last) / 2 - 1)
      else tsequenceFindTimestampLoop instants lowerInc upperInc t ((first + last) / 2 + 1) last := by
  rw [tsequenceFindTimestampLoop]
  simp only [hle, if_true, hx1, hx2, segmentHolds]

lemma tsequenceFindTimestampLoop_of_lt {instants : List (TInstant V)} {lowerInc upperInc : Bool} {t first last : ℤ}
    (h : last < first) : tsequenceFindTimestampLoop instants lowerInc upperInc t first last = -1 := by
  rw [tsequenceFindTimestampLoop]
  simp [not_le.mpr h]

lemma tsequenceFindTimestampLoop_of_none {instants : List (TInstant V)} {lowerInc upperInc : Bool}
    {t first last : ℤ} (hle : first ≤ last)
    (hnone : ∀ x1 x2, instants[((first + last) / 2).toNat]? = some x1 →
      instants[((first + last) / 2).toNat + 1]? = some x2 → False) :
    tsequenceFindTimestampLoop instants lowerInc upperInc t first last = -1 := by
  rw [tsequenceFindTimestampLoop]
  simp only [hle, if_true]

/-- A nonnegative result of the search is a segment whose test holds. -/
lemma tsequenceFindTimestampLoop_sound {instants : List (TInstant V)} {lowerInc upperInc : Bool}
    {t : ℤ} (first last : ℤ) (h0 : 0 ≤ first) :
    tsequenceFindTimestampLoop instants lowerInc upperInc t first last = -1 ∨
      ∃ x1 x2, 0 ≤ tsequenceFindTimestampLoop instants lowerInc upperInc t first last ∧
        instants[(tsequenceFindTimestampLoop instants lowerInc upperInc t first last).toNat]? =
          some x1 ∧
        instants[(tsequenceFindTimestampLoop instants lowerInc upperInc t first last).toNat + 1]? =
          some x2 ∧
        segmentHolds instants lowerInc upperInc t
          (tsequenceFindTimestampLoop instants lowerInc upperInc t first last) x1 x2 := by
  induction first, last using tsequenceFindTimestampLoop.induct instants lowerInc upperInc t with
  | case1 first last hle middle x1 x2 hx2 hx1 li1 ui1 hholds =>
    have hh : segmentHolds instants lowerInc upperInc t middle x1 x2 := hholds
    rw [tsequenceFindTimestampLoop_of_le hle hx1 hx2, if_pos hh]
    exact .inr ⟨x1, x2, by omega, hx1, hx2, hh⟩
  | case2 first last hle middle x1 x2 hx2 hx1 li1 ui1 hholds htx ih =>
    have hh : ¬segmentHolds instants lowerInc upperInc t middle x1 x2 := hholds
    rw [tsequenceFindTimestampLoop_of_le hle hx1 hx2, if_neg hh, if_pos htx]
    exact ih h0
  | case3 first last hle middle x1 x2 hx2 hx1 li1 ui1 hholds htx ih =>
    have hh : ¬segmentHolds instants lowerInc upperInc t middle x1 x2 := hholds
    rw [tsequenceFindTimestampLoop_of_le hle hx1 hx2, if_neg hh, if_neg htx]
    exact ih (by omega)
  | case4 first last hle middle hnone =>
    exact .inl (tsequenceFindTimestampLoop_of_none hle fun x1 x2 h1 h2 => hnone x1 x2 h1 h2)
  | case5 first last hlt =>
    exact .inl (tsequenceFindTimestampLoop_of_lt (not_le.mp hlt))

lemma segmentHolds_cons {inst : TInstant V} {instants : List (TInstant V)}
    {lowerInc upperInc : Bool} {t : ℤ} {m : ℕ} {x1 x2 : TInstant V} :
    segmentHolds (inst :: instants) lowerInc upperInc t (m + 1 : ℕ) x1 x2 ↔
      segmentHolds instants true upperInc t m x1 x2 := by
  unfold segmentHolds
  rw [if_neg (show ¬(((m + 1 : ℕ) : ℤ) = 0) by omega), ite_self]
  by_cases h : (m : ℤ) = instants.length - 2
  · rw [if_pos (show ((m + 1 : ℕ) : ℤ) = ((inst :: instants).length : ℤ) - 2 by simp; omega),
      if_pos h]
  · rw [if_neg (show ¬((m + 1 : ℕ) : ℤ) = ((inst :: instants).length : ℤ) - 2 by simp; omega),
      if_neg h]

/-- A timestamp between the first and the last instant, bounds included as the flags
say, lies in some segment. -/
lemma segmentHolds_exists {inst1 inst2 : TInstant V} {rest : List (TInstant V)}
    (hs : (inst1 :: inst2 :: rest).Pairwise fun inst1 inst2 => inst1.t < inst2.t)
    {lowerInc upperInc : Bool} {t : ℤ}
    (hlo : inst1.t < t ∨ lowerInc = true ∧ inst1.t = t)
    (hhi : t < lastT (inst2 :: rest) ∨ upperInc = true ∧ t = lastT (inst2 :: rest)) :
    ∃ (m : ℕ) (x1 x2 : TInstant V), (inst1 :: inst2 :: rest)[m]? = some x1 ∧
      (inst1 :: inst2 :: rest)[m + 1]? = some x2 ∧
      segmentHolds (inst1 :: inst2 :: rest) lowerInc upperInc t m x1 x2 := by
  induction rest generalizing inst1 inst2 lowerInc with
  | nil =>
    refine ⟨0, inst1, inst2, rfl, rfl, ?_⟩
    simp only [lastT_singleton] at hhi
    rcases hlo with hlo | hlo <;> rcases hhi with hhi | hhi
    · exact .inl ⟨hlo, hhi⟩
    · exact .inr (.inr ⟨by simpa [segmentHolds] using hhi.1, hhi.2.symm⟩)
    · exact .inr (.inl ⟨by simpa using hlo.1, hlo.2⟩)
    · exact .inr (.inl ⟨by simpa using hlo.1, hlo.2⟩)
  | cons inst3 rest ih =>
    by_cases ht : t < inst2.t
    · refine ⟨0, inst1, inst2, rfl, rfl, ?_⟩
      rcases hlo with hlo | hlo
      · exact .inl ⟨hlo, ht⟩
      · exact .inr (.inl ⟨by simpa using hlo.1, hlo.2⟩)
    · have hlo' : inst2.t < t ∨ true = true ∧ inst2.t = t := by
        rcases (not_lt.mp ht).lt_or_eq with h | h
        · exact .inl h
        · exact .inr ⟨rfl, h⟩
      obtain ⟨m, x1, x2, h1, h2, hm⟩ := ih hs.of_cons hlo' (by simpa using hhi)
      exact ⟨m + 1, x1, x2, by simpa using h1, by simpa using h2, segmentHolds_cons.mpr hm⟩

section Sorted

variable {instants : List (TInstant V)}
  (hs : instants.Pairwise fun inst1 inst2 => inst1.t < inst2.t)
include hs

lemma segmentHolds_unique {lowerInc upperInc : Bool} {t : ℤ} {m k : ℕ}
    {x1 x2 y1 y2 : TInstant V} (hx1 : instants[m]? = some x1) (hx2 : instants[m + 1]? = some x2)
    (hy1 : instants[k]? = some y1) (hy2 : instants[k + 1]? = some y2)
    (hm : segmentHolds instants lowerInc upperInc t m x1 x2)
    (hk : segmentHolds instants lowerInc upperInc t k y1 y2) : m = k := by
  have hlen : k + 1 < instants.length := (List.getElem?_eq_some_iff.mp hy2).1
  have hlen' : m + 1 < instants.length := (List.getElem?_eq_some_iff.mp hx2).1
  have hm' := segmentHolds_bounds hm (t_lt_of_getElem? hs hx1 hx2 (by omega))
  have hk' := segmentHolds_bounds hk (t_lt_of_getElem? hs hy1 hy2 (by omega))
  by_contra hne
  rcases Nat.lt_or_gt_of_ne hne with h | h
  · have := t_le_of_getElem? hs hx2 hy1 h
    omega
  · have := t_le_of_getElem? hs hy2 hx1 h
    omega

/-- The search returns the segment that contains the timestamp as long as that
segment is inside its window. -/
lemma tsequenceFindTimestampLoop_eq {lowerInc upperInc : Bool} {t : ℤ} {m : ℕ}
    {inst1 inst2 : TInstant V} (h1 : instants[m]? = some inst1) (h2 : instants[m + 1]? = some inst2)
    (hm : segmentHolds instants lowerInc upperInc t m inst1 inst2) (first last : ℤ) :
    0 ≤ first → first ≤ m → m ≤ last → last ≤ instants.length - 2 →
      tsequenceFindTimestampLoop instants lowerInc upperInc t first last = m := by
  have hm' := segmentHolds_bounds hm (t_lt_of_getElem? hs h1 h2 (by omega))
  induction first, last using tsequenceFindTimestampLoop.induct instants lowerInc upperInc t with
  | case1 first last hle middle x1 x2 hx2 hx1 li1 ui1 hholds =>
    intro h0 hf hl hlast
    have hh : segmentHolds instants lowerInc upperInc t middle x1 x2 := hholds
    rw [tsequenceFindTimestampLoop_of_le hle hx1 hx2, if_pos hh]
    have hmid : ((middle.toNat : ℕ) : ℤ) = middle := by omega
    rw [← hmid] at hh
    have := segmentHolds_unique hs hx1 hx2 h1 h2 hh hm
    omega
  | case2 first last hle middle x1 x2 hx2 hx1 li1 ui1 hholds htx ih =>
    intro h0 hf hl hlast
    have hh : ¬segmentHolds instants lowerInc upperInc t middle x1 x2 := hholds
    rw [tsequenceFindTimestampLoop_of_le hle hx1 hx2, if_neg hh, if_pos htx]
    have hne : m ≠ middle.toNat := fun hmid => hh (by
      subst hmid
      rw [h1] at hx1
      rw [h2] at hx2
      cases hx1
      cases hx2
      rwa [show ((middle.toNat : ℕ) : ℤ) = middle by omega] at hm)
    have hlt : m < middle.toNat := by
      by_contra hge
      have := t_le_of_getElem? hs hx2 h1 (by omega)
      have := t_lt_of_getElem? hs hx1 hx2 (by omega)
      omega
    exact ih h0 hf (by omega) (by omega)
  | case3 first last hle middle x1 x2 hx2 hx1 li1 ui1 hholds htx ih =>
    intro h0 hf hl hlast
    have hh : ¬segmentHolds instants lowerInc upperInc t middle x1 x2 := hholds
    rw [tsequenceFindTimestampLoop_of_le hle hx1 hx2, if_neg hh, if_neg htx]
    have hne : m ≠ middle.toNat := fun hmid => hh (by
      subst hmid
      rw [h1] at hx1
      rw [h2] at hx2
      cases hx1
      cases hx2
      rwa [show ((middle.toNat : ℕ) : ℤ) = middle by omega] at hm)
    have hgt : middle.toNat < m := by
      by_contra hle'
      have := t_le_of_getElem? hs h2 hx1 (by omega)
      omega
    exact ih (by omega) (by omega) hl hlast
  | case4 first last hle middle hnone =>
    intro h0 hf hl hlast
    have hlen : middle.toNat + 1 < instants.length := by omega
    exact (hnone _ _ (List.getElem?_eq_getElem (by omega)) (List.getElem?_eq_getElem hlen)).elim
  | case5 first last hlt =>
    intro h0 hf hl hlast
    omega

end Sorted

lemma tsequenceFindTimestamp_sound (seq : TSequence V B) (t : ℤ) :
    tsequenceFindTimestamp seq t = -1 ∨
      ∃ (m : ℕ) (x1 x2 : TInstant V), tsequenceFindTimestamp seq t = m ∧
        seq.instants[m]? = some x1 ∧ seq.instants[m + 1]? = some x2 ∧
        segmentHolds seq.instants seq.period.lowerInc seq.period.upperInc t m x1 x2 := by
  refine (tsequenceFindTimestampLoop_sound 0 _ le_rfl).imp id ?_
  rintro ⟨x1, x2, h0, h1, h2, hm⟩
  exact ⟨_, x1, x2, (Int.toNat_of_nonneg h0).symm, h1, h2, by rwa [Int.toNat_of_nonneg h0]⟩

/-! ## The search on a well-formed sequence -/

variable [DecidableEq V]

/-- On a well-formed sequence of at least two instants, the search finds the segment
of every timestamp of the period. -/
theorem tsequenceFindTimestamp_of_contains {seq : TSequence V B} (hwf : seq.WellFormed)
    (hlen : 1 < seq.instants.length) {t : ℤ} (hc : containsPeriodTimestamp seq.period t = true) :
    ∃ (m : ℕ) (x1 x2 : TInstant V), tsequenceFindTimestamp seq t = m ∧
      seq.instants[m]? = some x1 ∧ seq.instants[m + 1]? = some x2 ∧
      segmentHolds seq.instants seq.period.lowerInc seq.period.upperInc t m x1 x2 := by
  obtain ⟨instants, ⟨lower, upper, lowerInc, upperInc⟩, linear, bbox⟩ := seq
  have hs := chain'_t_iff_pairwise.mp hwf.increasing
  have hper := hwf.period
  simp only [periodOf, Period.mk.injEq] at hper hs hlen ⊢
  obtain ⟨rfl, rfl, -, -⟩ := hper
  match instants, hlen, hs with
  | inst1 :: inst2 :: rest, _, hs =>
    rw [containsPeriodTimestamp_iff] at hc
    simp only [firstT_cons, lastT_cons_cons] at hc
    obtain ⟨m, x1, x2, h1, h2, hm⟩ := segmentHolds_exists hs hc.1 hc.2
    have hm2 : m + 1 < (inst1 :: inst2 :: rest).length := (List.getElem?_eq_some_iff.mp h2).1
    refine ⟨m, x1, x2, tsequenceFindTimestampLoop_eq hs h1 h2 hm 0 _ le_rfl (by omega) ?_ le_rfl,
      h1, h2, hm⟩
    simp only [List.length_cons] at hm2 ⊢
    omega

/-- A segment whose test holds lies in the period of the sequence. -/
lemma contains_of_segmentHolds {seq : TSequence V B} (hwf : seq.WellFormed) {t : ℤ} {m : ℕ}
    {x1 x2 : TInstant V} (h1 : seq.instants[m]? = some x1) (h2 : seq.instants[m + 1]? = some x2)
    (hm : segmentHolds seq.instants seq.period.lowerInc seq.period.upperInc t m x1 x2) :
    containsPeriodTimestamp seq.period t = true := by
  have hs := chain'_t_iff_pairwise.mp hwf.increasing
  have hlen : m + 1 < seq.instants.length := (List.getElem?_eq_some_iff.mp h2).1
  have h12 := t_lt_of_getElem? hs h1 h2 (by omega)
  have hfirst := firstT_le_of_getElem? hs h1
  have hlast := le_lastT_of_getElem? hs h2
  rw [hwf.period, containsPeriodTimestamp_iff]
  simp only [periodOf]
  rcases hm with ⟨ha, hb⟩ | ⟨hli, ht⟩ | ⟨hui, ht⟩
  · exact ⟨.inl (by omega), .inl (by omega)⟩
  · refine ⟨?_, .inl (by omega)⟩
    split_ifs at hli with hm0
    · have hm0 : m = 0 := by omega
      subst hm0
      exact .inr ⟨hli, by simp [firstT, List.head?_eq_getElem?, h1, ht]⟩
    · have h0 := List.getElem?_eq_getElem (show 0 < seq.instants.length by omega)
      have := t_lt_of_getElem? hs h0 h1 (by omega)
      exact .inl (by simp only [firstT, List.head?_eq_getElem?, h0, Option.map_some',
        Option.getD_some]; omega)
  · refine ⟨.inl (by omega), ?_⟩
    split_ifs at hui with hml
    have hml : m + 1 = seq.instants.length - 1 := by omega
    exact .inr ⟨hui, by simp [lastT, List.getLast?_eq_getElem?, ← hml, h2, ht]⟩

lemma tsequenceFindTimestamp_of_not_contains {seq : TSequence V B} (hwf : seq.WellFormed) {t : ℤ}
    (hc : containsPeriodTimestamp seq.period t = false) : tsequenceFindTimestamp seq t = -1 := by
  rcases tsequenceFindTimestamp_sound seq t with h | ⟨m, x1, x2, -, h1, h2, hm⟩
  · exact h
  · exact absurd (contains_of_segmentHolds hwf h1 h2 hm) (by simp [hc])

/-- From a timestamp of the period before its upper bound, `tsequence_at_period`
starts at the segment the search finds, or at the first one when the timestamp is
the excluded lower bound: a segment starting at or before the timestamp and ending
after it. -/
lemma tsequenceFindTimestamp_lower {seq : TSequence V B} (hwf : seq.WellFormed)
    (hlen : 1 < seq.instants.length) {t : ℤ} (hlo : seq.period.lower ≤ t)
    (hhi : t < seq.period.upper) :
    ∃ (m : ℕ) (x1 x2 : TInstant V), max (tsequenceFindTimestamp seq t) 0 = m ∧
      seq.instants[m]? = some x1 ∧ seq.instants[m + 1]? = some x2 ∧ x1.t ≤ t ∧ t < x2.t := by
  have hs := chain'_t_iff_pairwise.mp hwf.increasing
  have hper := hwf.period
  cases hc : containsPeriodTimestamp seq.period t
  · have hx1 := List.getElem?_eq_getElem (show 0 < seq.instants.length by omega)
    have hx2 := List.getElem?_eq_getElem hlen
    have hfirst : seq.instants[0].t = t := by
      rw [hper] at hc hlo hhi
      simp only [containsPeriodTimestamp, periodOf, firstT, List.head?_eq_getElem?, hx1,
        Option.map_some', Option.getD_some] at hc hlo hhi
      cases seq.period.lowerInc <;> simp at hc <;> omega
    refine ⟨0, _, _, by rw [tsequenceFindTimestamp_of_not_contains hwf hc]; rfl, hx1, hx2,
      hfirst.le, ?_⟩
    exact hfirst ▸ t_lt_of_getElem? hs hx1 hx2 zero_lt_one
  · obtain ⟨m, x1, x2, hfind, h1, h2, hm⟩ := tsequenceFindTimestamp_of_contains hwf hlen hc
    have h12 := t_lt_of_getElem? hs h1 h2 (lt_add_one m)
    refine ⟨m, x1, x2, by rw [hfind]; omega, h1, h2, ?_⟩
    rcases hm with ⟨ha, hb⟩ | ⟨-, ht⟩ | ⟨hui, ht⟩
    · omega
    · omega
    · split_ifs at hui with hml
      have hml : m + 1 = seq.instants.length - 1 := by omega
      have hlast : x2.t = lastT seq.instants := by
        simp [lastT, List.getLast?_eq_getElem?, ← hml, h2]
      rw [hper] at hhi
      simp only [periodOf] at hhi
      omega

/-- `tsequence_at_timestamp` returns the instant of the value of the sequence at every
timestamp of its period, and nothing elsewhere. -/
theorem tsequenceAtTimestamp_eq_valueAt (bt : BaseType V) {seq : TSequence V B}
    (hwf : seq.WellFormed) (t : ℤ) :
    tsequenceAtTimestamp bt seq t = (seq.valueAt bt t).map fun value => ⟨value, t⟩ := by
  unfold tsequenceAtTimestamp TSequence.valueAt
  by_cases hc : containsPeriodTimestamp seq.period t = true
  swap
  · simp [hc]
  simp only [hc, Bool.not_true, Bool.false_eq_true, if_false, if_true]
  have hs := chain'_t_iff_pairwise.mp hwf.increasing
  match hi : seq.instants with
  | [] => exact (hwf.nonempty hi).elim
  | [inst] =>
    have hper := hwf.period
    rw [hi] at hper
    rw [hper, containsPeriodTimestamp_iff] at hc
    simp only [periodOf, firstT_cons, lastT_singleton] at hc
    have ht : t = inst.t := by omega
    simp [instantsValueAt, ht]
  | inst1 :: inst2 :: rest =>
    obtain ⟨m, x1, x2, hfind, h1, h2, hm⟩ :=
      tsequenceFindTimestamp_of_contains hwf (by simp [hi]) hc
    rw [hi] at h1 h2 hs
    have hb := segmentHolds_bounds hm (t_lt_of_getElem? hs h1 h2 (by omega))
    simp only [hfind, segmentAt, Nat.cast_nonneg, not_lt.mpr, Int.toNat_natCast, hi, h1, h2,
      Option.map_some']
    rw [instantsValueAt_of_getElem? hs h1 h2 hb.1 hb.2.1]
    rfl

lemma tsequenceValueAtTimestamp_eq_map (bt : BaseType V) (seq : TSequence V B) (t : ℤ) :
    tsequenceValueAtTimestamp bt seq t = (tsequenceAtTimestamp bt seq t).map TInstant.value := by
  unfold tsequenceValueAtTimestamp tsequenceAtTimestamp
  split_ifs
  · rfl
  · split <;> simp [Option.map_map, Function.comp_def, tsequenceAtTimestamp1]

lemma tsequenceValueAtTimestamp_eq_valueAt (bt : BaseType V) {seq : TSequence V B}
    (hwf : seq.WellFormed) (t : ℤ) : tsequenceValueAtTimestamp bt seq t = seq.valueAt bt t := by
  rw [tsequenceValueAtTimestamp_eq_map, tsequenceAtTimestamp_eq_valueAt bt hwf, Option.map_map]
  exact Option.map_id'

/-! ## The segment the search returns -/

/-- Segment `n` of an instant array as the specification describes it: from instant `n`
to instant `n + 1`, closed on the left and open on the right, except that the first
segment takes the lower flag of the sequence and the last one its upper flag. -/
def segmentPeriod (instants : List (TInstant V)) (lowerInc upperInc : Bool) (n : ℕ)
    (h : n + 1 < instants.length) : Period :=
  ⟨instants[n].t, instants[n + 1].t, if n = 0 then lowerInc else true,
    if n = instants.length - 2 then upperInc else false⟩

omit [DecidableEq V] in
lemma segmentHolds_iff_contains {instants : List (TInstant V)} {lowerInc upperInc : Bool}
    {t : ℤ} {n : ℕ} (h : n + 1 < instants.length) (h12 : instants[n].t < instants[n + 1].t) :
    segmentHolds instants lowerInc upperInc t n instants[n] instants[n + 1] ↔
      containsPeriodTimestamp (segmentPeriod instants lowerInc upperInc n h) t = true := by
  have hlast : ((n : ℤ) = instants.length - 2) ↔ n = instants.length - 2 := by omega
  simp only [segmentHolds, segmentPeriod, containsPeriodTimestamp_iff, Nat.cast_eq_zero, hlast]
  generalize (if n = 0 then lowerInc else true) = li
  generalize (if n = instants.length - 2 then upperInc else false) = ui
  cases li <;> cases ui <;> simp <;> omega

/-- `tsequence_find_timestamp` on a well-formed sequence of at least two instants
returns `-1` exactly at the timestamps outside the period, and otherwise the one
segment that contains the timestamp; `tsequence_value_at_timestamp` then gives every
instant of the period its own value. -/
theorem tsequence_find_timestamp_segment (bt : BaseType V) {seq : TSequence V B}
    (hwf : seq.WellFormed) (hlen : 2 ≤ seq.instants.length) (t : ℤ) :
    (tsequenceFindTimestamp seq t = -1 ↔ containsPeriodTimestamp seq.period t = false) ∧
    (containsPeriodTimestamp seq.period t = true →
      ∃ (n : ℕ) (h : n + 1 < seq.instants.length), tsequenceFindTimestamp seq t = n ∧
        containsPeriodTimestamp
          (segmentPeriod seq.instants seq.period.lowerInc seq.period.upperInc n h) t = true ∧
        ∀ (k : ℕ) (hk : k + 1 < seq.instants.length),
          containsPeriodTimestamp
            (segmentPeriod seq.instants seq.period.lowerInc seq.period.upperInc k hk) t = true →
          k = n) ∧
    ∀ inst ∈ seq.instants, containsPeriodTimestamp seq.period inst.t = true →
      tsequenceValueAtTimestamp bt seq inst.t = some inst.value := by
  have hs := chain'_t_iff_pairwise.mp hwf.increasing
  have h12 (k : ℕ) (hk : k + 1 < seq.instants.length) : seq.instants[k].t < seq.instants[k + 1].t :=
    t_lt_of_getElem? hs (List.getElem?_eq_getElem _) (List.getElem?_eq_getElem hk) (lt_add_one k)
  refine ⟨⟨fun hfind => ?_, tsequenceFindTimestamp_of_not_contains hwf⟩, fun hc => ?_,
    fun inst hi hc => ?_⟩
  · cases hc : containsPeriodTimestamp seq.period t
    · rfl
    · obtain ⟨m, -, -, hm, -⟩ := tsequenceFindTimestamp_of_contains hwf hlen hc
      omega
  · obtain ⟨n, x1, x2, hfind, h1, h2, hn⟩ := tsequenceFindTimestamp_of_contains hwf hlen hc
    have hn1 : n + 1 < seq.instants.length := (List.getElem?_eq_some_iff.mp h2).1
    rw [List.getElem?_eq_getElem hn1, Option.some.injEq] at h2
    rw [List.getElem?_eq_getElem (by omega), Option.some.injEq] at h1
    subst h1 h2
    refine ⟨n, hn1, hfind, (segmentHolds_iff_contains hn1 (h12 n hn1)).mp hn, fun k hk hkc => ?_⟩
    exact segmentHolds_unique hs (List.getElem?_eq_getElem _) (List.getElem?_eq_getElem hk)
      (List.getElem?_eq_getElem _) (List.getElem?_eq_getElem hn1)
      ((segmentHolds_iff_contains hk (h12 k hk)).mpr hkc) hn
  · rw [tsequenceValueAtTimestamp_eq_valueAt bt hwf, TSequence.valueAt_of_mem hwf hi hc]

theorem tsequence_find_timestamp_segment_pair :
    (⟨[⟨1, 0⟩, ⟨2, 2⟩], ⟨0, 2, true, false⟩, true, ()⟩ : TSequence ℚ Unit).WellFormed ∧
    2 ≤ (⟨[⟨1, 0⟩, ⟨2, 2⟩], ⟨0, 2, true, false⟩, true, ()⟩ : TSequence ℚ Unit).instants.length ∧
    (tsequenceFindTimestamp (⟨[⟨1, 0⟩, ⟨2, 2⟩], ⟨0, 2, true, false⟩, true, ()⟩ : TSequence ℚ Unit) 2 = -1 ↔
      containsPeriodTimestamp ⟨0, 2, true, false⟩ 2 = false) ∧
    (containsPeriodTimestamp ⟨0, 2, true, false⟩ 2 = true →
      ∃ (n : ℕ) (h : n + 1 < [(⟨1, 0⟩ : TInstant ℚ), ⟨2, 2⟩].length),
        tsequenceFindTimestamp (⟨[⟨1, 0⟩, ⟨2, 2⟩], ⟨0, 2, true, false⟩, true, ()⟩ : TSequence ℚ Unit) 2 = n ∧
        containsPeriodTimestamp (segmentPeriod [⟨1, 0⟩, ⟨2, 2⟩] true false n h) 2 = true ∧
        ∀ (k : ℕ) (hk : k + 1 < [(⟨1, 0⟩ : TInstant ℚ), ⟨2, 2⟩].length),
          containsPeriodTimestamp (segmentPeriod [⟨1, 0⟩, ⟨2, 2⟩] true false k hk) 2 = true →
          k = n) ∧
    ∀ inst ∈ [(⟨1, 0⟩ : TInstant ℚ), ⟨2, 2⟩], containsPeriodTimestamp ⟨0, 2, true, false⟩ inst.t = true →
      tsequenceValueAtTimestamp (tfloat 0)
        (⟨[⟨1, 0⟩, ⟨2, 2⟩], ⟨0, 2, true, false⟩, true, ()⟩ : TSequence ℚ Unit) inst.t = some inst.value := by
  have hwf : (⟨[⟨1, 0⟩, ⟨2, 2⟩], ⟨0, 2, true, false⟩, true, ()⟩ : TSequence ℚ Unit).WellFormed :=
    ⟨by simp, by simp, by simp [periodOf, lastT], by simp, by simp⟩
  exact ⟨hwf, le_rfl, tsequence_find_timestamp_segment (tfloat 0) hwf le_rfl 2⟩

end TemporalSequence
