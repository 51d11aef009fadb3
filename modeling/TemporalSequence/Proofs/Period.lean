import TemporalSequence.RestrictTime

/-!
# Periods as sets of timestamps

The period operations, modelled from their specification, read as operations on
the sets of timestamps the periods contain: two periods with a common timestamp
overlap, the intersection contains the common timestamps, and the difference the
timestamps of the first period outside the second, in time order.
-/

namespace TemporalSequence

/-- A period as `period.c` builds it: `lower <= upper`, inclusive on both sides when
instantaneous. -/
def Period.Valid (p : Period) : Prop :=
  p.lower < p.upper ∨ p.lower = p.upper ∧ p.lowerInc = true ∧ p.upperInc = true

instance (p : Period) : Decidable p.Valid := inferInstanceAs (Decidable (_ ∨ _))

/-- Every timestamp of `p1` comes before every timestamp of `p2`. -/
def Period.Before (p1 p2 : Period) : Prop :=
  ∀ t1 t2, containsPeriodTimestamp p1 t1 = true → containsPeriodTimestamp p2 t2 = true → t1 < t2

/-- `p1` ends before `p2` starts, as the periods of a period set do; a timestamp `t`
precedes `p` when the instantaneous period `[t, t]` does. -/
def Period.Precedes (p1 p2 : Period) : Prop :=
  p1.upper < p2.lower ∨ p1.upper = p2.lower ∧ ¬(p1.upperInc = true ∧ p2.lowerInc = true)

lemma overlapsPeriodPeriod_of_contains {p1 p2 : Period} {t : ℤ}
    (h1 : containsPeriodTimestamp p1 t = true) (h2 : containsPeriodTimestamp p2 t = true) :
    overlapsPeriodPeriod p1 p2 = true := by
  obtain ⟨l1, u1, _ | _, _ | _⟩ := p1 <;> obtain ⟨l2, u2, _ | _, _ | _⟩ := p2 <;>
    simp [overlapsPeriodPeriod, containsPeriodTimestamp] at * <;> omega

lemma overlapsPeriodPeriod_instant {t : ℤ} {p : Period} :
    overlapsPeriodPeriod ⟨t, t, true, true⟩ p = containsPeriodTimestamp p t := by
  obtain ⟨l, u, _ | _, _ | _⟩ := p <;>
    simp [overlapsPeriodPeriod, containsPeriodTimestamp, eq_comm, Bool.and_comm]

private lemma lowerBound_max_iff (l1 l2 t : ℤ) (i1 i2 : Bool) :
    (max l1 l2 < t ∨
        (if l1 = l2 then i1 && i2 else if max l1 l2 = l1 then i1 else i2) = true ∧ max l1 l2 = t) ↔
      (l1 < t ∨ i1 = true ∧ l1 = t) ∧ (l2 < t ∨ i2 = true ∧ l2 = t) := by
  rcases lt_trichotomy l1 l2 with h | rfl | h
  · rw [max_eq_right h.le, if_neg h.ne, if_neg (by omega)]
    cases i1 <;> cases i2 <;> simp <;> omega
  · cases i1 <;> cases i2 <;> simp <;> omega
  · rw [max_eq_left h.le, if_neg h.ne', if_pos rfl]
    cases i1 <;> cases i2 <;> simp <;> omega

private lemma upperBound_min_iff (u1 u2 t : ℤ) (j1 j2 : Bool) :
    (t < min u1 u2 ∨
        (if u1 = u2 then j1 && j2 else if min u1 u2 = u1 then j1 else j2) = true ∧ t = min u1 u2) ↔
      (t < u1 ∨ j1 = true ∧ t = u1) ∧ (t < u2 ∨ j2 = true ∧ t = u2) := by
  rcases lt_trichotomy u1 u2 with h | rfl | h
  · rw [min_eq_left h.le, if_neg h.ne, if_pos rfl]
    cases j1 <;> cases j2 <;> simp <;> omega
  · cases j1 <;> cases j2 <;> simp <;> omega
  · rw [min_eq_right h.le, if_neg h.ne', if_neg (by omega)]
    cases j1 <;> cases j2 <;> simp <;> omega

theorem intersectionPeriodPeriod_contains {p1 p2 inter : Period}
    (h : intersectionPeriodPeriod p1 p2 = some inter) (t : ℤ) :
    containsPeriodTimestamp inter t = true ↔
      containsPeriodTimestamp p1 t = true ∧ containsPeriodTimestamp p2 t = true := by
  simp only [intersectionPeriodPeriod, Option.ite_none_right_eq_some, Option.some.injEq] at h
  obtain ⟨-, rfl⟩ := h
  simp only [containsPeriodTimestamp_iff, lowerBound_max_iff, upperBound_min_iff]
  exact and_and_and_comm

lemma intersectionPeriodPeriod_bounds {p1 p2 inter : Period}
    (h : intersectionPeriodPeriod p1 p2 = some inter) :
    inter.lower = max p1.lower p2.lower ∧ inter.upper = min p1.upper p2.upper := by
  simp only [intersectionPeriodPeriod, Option.ite_none_right_eq_some, Option.some.injEq] at h
  obtain ⟨-, rfl⟩ := h
  exact ⟨rfl, rfl⟩

lemma intersectionPeriodPeriod_isSome {p1 p2 : Period} (h : overlapsPeriodPeriod p1 p2 = true) :
    ∃ inter, intersectionPeriodPeriod p1 p2 = some inter := by
  simp [intersectionPeriodPeriod, h]

theorem intersectionPeriodPeriod_valid {p1 p2 inter : Period} (hv1 : p1.Valid) (hv2 : p2.Valid)
    (h : intersectionPeriodPeriod p1 p2 = some inter) : inter.Valid := by
  simp only [intersectionPeriodPeriod, Option.ite_none_right_eq_some, Option.some.injEq] at h
  obtain ⟨ho, rfl⟩ := h
  obtain ⟨l1, u1, _ | _, _ | _⟩ := p1 <;> obtain ⟨l2, u2, _ | _, _ | _⟩ := p2 <;>
    simp [Period.Valid, overlapsPeriodPeriod] at * <;> omega

lemma Period.Valid.le {p : Period} (hv : p.Valid) : p.lower ≤ p.upper := by
  rcases hv with h | ⟨h, -⟩ <;> omega

lemma Period.Valid.contains_iff_of_eq {p : Period} (hv : p.Valid) (heq : p.lower = p.upper)
    (t : ℤ) : containsPeriodTimestamp p t = true ↔ t = p.lower := by
  rcases hv with h | ⟨-, hl, hu⟩
  · exact absurd heq h.ne
  · simp only [containsPeriodTimestamp_iff, hl, hu, true_and]
    omega

/-! ## Ordered periods -/

lemma Period.Precedes.upper_le {p1 p2 : Period} (h : p1.Precedes p2) : p1.upper ≤ p2.lower := by
  rcases h with h | ⟨h, -⟩ <;> omega

theorem Period.Precedes.before {p1 p2 : Period} (h : p1.Precedes p2) : p1.Before p2 := by
  intro t1 t2 h1 h2
  rw [containsPeriodTimestamp_iff] at h1 h2
  rcases h with h | ⟨h, hinc⟩
  · omega
  · rcases h1.2 with h1 | ⟨hu, rfl⟩ <;> rcases h2.1 with h2 | ⟨hl, rfl⟩
    all_goals first | omega | exact absurd ⟨hu, hl⟩ hinc

theorem Period.Precedes.trans {p1 p2 p3 : Period} (h12 : p1.Precedes p2) (hv : p2.Valid)
    (h23 : p2.Precedes p3) : p1.Precedes p3 := by
  unfold Period.Precedes at *
  rcases hv with hv | ⟨hv, hl, hu⟩
  · omega
  · rcases h12 with h12 | ⟨h12, h12'⟩ <;> rcases h23 with h23 | ⟨h23, h23'⟩
    all_goals first | omega | exact .inr ⟨by omega, fun h => h12' ⟨h.1, hl⟩⟩

lemma Period.Precedes.of_contains {q p : Period} {t : ℤ} (h : q.Precedes p)
    (ht : containsPeriodTimestamp q t = true) : (⟨t, t, true, true⟩ : Period).Precedes p := by
  have hb := bounds_of_containsPeriodTimestamp ht
  rcases h with h | ⟨h, hinc⟩
  · exact .inl (by dsimp only; omega)
  · rcases hb.2.lt_or_eq with h' | rfl
    · exact .inl (by dsimp only; omega)
    · have hu := ((containsPeriodTimestamp_iff.mp ht).2.resolve_left (lt_irrefl _)).1
      exact .inr ⟨h, fun hl => hinc ⟨hu, hl.2⟩⟩

/-! ## Difference of periods -/

lemma minusPeriodPeriod_of_not_overlaps {p1 p2 : Period}
    (ho : overlapsPeriodPeriod p1 p2 = false) : minusPeriodPeriod p1 p2 = [p1] := by
  simp [minusPeriodPeriod, ho]

private lemma exists_mem_ite_singleton {c : Prop} [Decidable c] {a : Period} {P : Period → Prop} :
    (∃ q ∈ (if c then [a] else []), P q) ↔ c ∧ P a := by
  split_ifs with h <;> simp [h]

private lemma minusPeriodPeriod_lower_contains {p1 p2 : Period}
    (ho : overlapsPeriodPeriod p1 p2 = true) (t : ℤ) :
    ((p1.lower < p2.lower ∨ p1.lower = p2.lower ∧ p1.lowerInc = true ∧ (!p2.lowerInc) = true) ∧
      containsPeriodTimestamp ⟨p1.lower, p2.lower, p1.lowerInc, !p2.lowerInc⟩ t = true) ↔
    containsPeriodTimestamp p1 t = true ∧ ¬(p2.lower < t ∨ p2.lowerInc = true ∧ p2.lower = t) := by
  obtain ⟨l1, u1, i1, j1⟩ := p1
  obtain ⟨l2, u2, i2, j2⟩ := p2
  replace ho := (Bool.and_eq_true _ _ ▸ ho).2
  simp only [containsPeriodTimestamp_iff]
  cases i1 <;> cases i2 <;> cases j1 <;> simp at ho ⊢ <;> omega

private lemma minusPeriodPeriod_upper_contains {p1 p2 : Period}
    (ho : overlapsPeriodPeriod p1 p2 = true) (t : ℤ) :
    ((p2.upper < p1.upper ∨ p2.upper = p1.upper ∧ p1.upperInc = true ∧ (!p2.upperInc) = true) ∧
      containsPeriodTimestamp ⟨p2.upper, p1.upper, !p2.upperInc, p1.upperInc⟩ t = true) ↔
    containsPeriodTimestamp p1 t = true ∧ ¬(t < p2.upper ∨ p2.upperInc = true ∧ t = p2.upper) := by
  obtain ⟨l1, u1, i1, j1⟩ := p1
  obtain ⟨l2, u2, i2, j2⟩ := p2
  replace ho := (Bool.and_eq_true _ _ ▸ ho).1
  simp only [containsPeriodTimestamp_iff]
  cases i1 <;> cases j1 <;> cases j2 <;> simp at ho ⊢ <;> omega

theorem minusPeriodPeriod_contains {p1 p2 : Period} (t : ℤ) :
    (∃ q ∈ minusPeriodPeriod p1 p2, containsPeriodTimestamp q t = true) ↔
      containsPeriodTimestamp p1 t = true ∧ containsPeriodTimestamp p2 t = false := by
  cases ho : overlapsPeriodPeriod p1 p2
  · rw [minusPeriodPeriod_of_not_overlaps ho]
    cases hc : containsPeriodTimestamp p2 t
    · simp
    · simpa using fun h => Bool.false_ne_true (ho ▸ overlapsPeriodPeriod_of_contains h hc)
  simp only [minusPeriodPeriod, ho, Bool.not_true, Bool.false_eq_true, if_false, List.mem_append,
    or_and_right, exists_or]
  rw [exists_mem_ite_singleton, exists_mem_ite_singleton, minusPeriodPeriod_lower_contains ho,
    minusPeriodPeriod_upper_contains ho, ← and_or_left, Bool.eq_false_iff, Ne,
    containsPeriodTimestamp_iff (p := p2), not_and_or]

theorem minusPeriodPeriod_valid {p1 p2 : Period} (hv : p1.Valid) :
    ∀ q ∈ minusPeriodPeriod p1 p2, q.Valid := by
  cases ho : overlapsPeriodPeriod p1 p2
  · simpa [minusPeriodPeriod_of_not_overlaps ho] using hv
  simp only [minusPeriodPeriod, ho, Bool.not_true, Bool.false_eq_true, if_false, List.mem_append,
    List.mem_ite_nil_right, List.mem_singleton]
  rintro q (⟨hc, rfl⟩ | ⟨hc, rfl⟩)
  · exact hc
  · exact hc.imp id fun h => ⟨h.1, h.2.2, h.2.1⟩

theorem minusPeriodPeriod_overlaps {p1 p2 : Period} (hv : p1.Valid) :
    ∀ q ∈ minusPeriodPeriod p1 p2, overlapsPeriodPeriod p1 q = true := by
  cases ho : overlapsPeriodPeriod p1 p2
  · rw [minusPeriodPeriod_of_not_overlaps ho]
    obtain ⟨l1, u1, _ | _, _ | _⟩ := p1 <;> simp [overlapsPeriodPeriod, Period.Valid] at * <;> omega
  simp only [minusPeriodPeriod, ho, Bool.not_true, Bool.false_eq_true, if_false, List.mem_append,
    List.mem_ite_nil_right, List.mem_singleton]
  rintro q (⟨hc, rfl⟩ | ⟨hc, rfl⟩) <;>
    obtain ⟨l1, u1, _ | _, _ | _⟩ := p1 <;> obtain ⟨l2, u2, _ | _, _ | _⟩ := p2 <;>
    simp [overlapsPeriodPeriod, Period.Valid] at * <;> omega

theorem minusPeriodPeriod_precedes {p1 p2 : Period} (hv : p2.Valid) :
    (minusPeriodPeriod p1 p2).Pairwise Period.Precedes ∧
      ∀ q ∈ (minusPeriodPeriod p1 p2).dropLast, q.Precedes p2 := by
  cases ho : overlapsPeriodPeriod p1 p2
  · simp [minusPeriodPeriod_of_not_overlaps ho]
  simp only [minusPeriodPeriod, ho, Bool.not_true, Bool.false_eq_true, if_false]
  have hpre : Period.Precedes ⟨p1.lower, p2.lower, p1.lowerInc, !p2.lowerInc⟩ p2 := by
    simp [Period.Precedes]
  split_ifs
  · refine ⟨List.pairwise_pair.mpr ?_, by simpa using hpre⟩
    simp only [Period.Precedes]
    rcases hv with hv | ⟨hv, hl, -⟩
    · exact .inl hv
    · exact .inr ⟨hv, by simp [hl]⟩
  all_goals simp [hpre]

/-! ## Period sets -/

private lemma lowerBound_of_precedes {p q : Period} (hv : p.Valid) (h : p.Precedes q) :
    p.lower < q.lower ∨ p.lower = q.lower ∧ (q.lowerInc = true → p.lowerInc = true) := by
  rcases hv with hv | ⟨hv, hl, -⟩ <;> rcases h with h | ⟨h, -⟩
  · exact .inl (by omega)
  · exact .inl (by omega)
  · exact .inl (by omega)
  · exact .inr ⟨by omega, fun _ => hl⟩

private lemma upperBound_of_precedes {p q : Period} (hv : p.Valid) (h : q.Precedes p) :
    q.upper < p.upper ∨ q.upper = p.upper ∧ (q.upperInc = true → p.upperInc = true) := by
  rcases hv with hv | ⟨hv, -, hu⟩ <;> rcases h with h | ⟨h, -⟩
  · exact .inl (by omega)
  · exact .inl (by omega)
  · exact .inl (by omega)
  · exact .inr ⟨by omega, fun _ => hu⟩

/-- A period of a period set lies within its bounding period. -/
lemma periodsetBbox_within {ps : List Period} (hv : ∀ q ∈ ps, q.Valid)
    (hps : ps.Pairwise Period.Precedes) {q : Period} (hq : q ∈ ps) :
    ((periodsetBbox ps).lower < q.lower ∨ (periodsetBbox ps).lower = q.lower ∧
        (q.lowerInc = true → (periodsetBbox ps).lowerInc = true)) ∧
      (q.upper < (periodsetBbox ps).upper ∨ q.upper = (periodsetBbox ps).upper ∧
        (q.upperInc = true → (periodsetBbox ps).upperInc = true)) := by
  obtain ⟨first, rest, rfl⟩ := List.exists_cons_of_ne_nil (List.ne_nil_of_mem hq)
  have hne := List.cons_ne_nil first rest
  have hsplit := List.dropLast_append_getLast hne
  set last := (first :: rest).getLast hne
  have hbbox : periodsetBbox (first :: rest) =
      ⟨first.lower, last.upper, first.lowerInc, last.upperInc⟩ := by
    simp [periodsetBbox, List.getLast?_eq_getLast _ hne, last]
  rw [hbbox]
  constructor
  · rcases List.mem_cons.mp hq with rfl | hq
    · exact .inr ⟨rfl, id⟩
    · exact lowerBound_of_precedes (p := first) (hv first (List.mem_cons_self _ _))
        (List.rel_of_pairwise_cons hps hq)
  · rw [← hsplit] at hps hq
    rcases List.mem_append.mp hq with hq | hq
    · exact upperBound_of_precedes (p := last) (hv last (List.getLast_mem hne))
        ((List.pairwise_append.mp hps).2.2 q hq last (List.mem_singleton_self _))
    · rw [List.mem_singleton.mp hq]
      exact .inr ⟨rfl, id⟩

private lemma containsPeriodTimestamp_of_within {q b : Period} {t : ℤ}
    (hl : b.lower < q.lower ∨ b.lower = q.lower ∧ (q.lowerInc = true → b.lowerInc = true))
    (hu : q.upper < b.upper ∨ q.upper = b.upper ∧ (q.upperInc = true → b.upperInc = true))
    (ht : containsPeriodTimestamp q t = true) : containsPeriodTimestamp b t = true := by
  rw [containsPeriodTimestamp_iff] at ht ⊢
  obtain ⟨h1, h2⟩ := ht
  constructor
  · rcases h1 with h1 | ⟨hi, h1⟩ <;> rcases hl with hl | ⟨hl, hinc⟩
    · exact .inl (by omega)
    · exact .inl (by omega)
    · exact .inl (by omega)
    · exact .inr ⟨hinc hi, by omega⟩
  · rcases h2 with h2 | ⟨hi, h2⟩ <;> rcases hu with hu | ⟨hu, hinc⟩
    · exact .inl (by omega)
    · exact .inl (by omega)
    · exact .inl (by omega)
    · exact .inr ⟨hinc hi, by omega⟩

/-- A timestamp of a period of a period set is in its bounding period: the periods
are in time order. -/
theorem containsPeriodTimestamp_periodsetBbox {ps : List Period} (hv : ∀ q ∈ ps, q.Valid)
    (hps : ps.Pairwise Period.Precedes) {q : Period} (hq : q ∈ ps) {t : ℤ}
    (ht : containsPeriodTimestamp q t = true) :
    containsPeriodTimestamp (periodsetBbox ps) t = true :=
  let ⟨hl, hu⟩ := periodsetBbox_within hv hps hq
  containsPeriodTimestamp_of_within hl hu ht

lemma overlapsPeriodPeriod_of_within {s q b : Period} (ho : overlapsPeriodPeriod s q = true)
    (hl : b.lower < q.lower ∨ b.lower = q.lower ∧ (q.lowerInc = true → b.lowerInc = true))
    (hu : q.upper < b.upper ∨ q.upper = b.upper ∧ (q.upperInc = true → b.upperInc = true)) :
    overlapsPeriodPeriod s b = true := by
  simp only [overlapsPeriodPeriod, Bool.and_eq_true, Bool.or_eq_true, decide_eq_true_eq,
    beq_iff_eq] at ho ⊢
  obtain ⟨h1, h2⟩ := ho
  constructor
  · rcases h1 with h1 | ⟨⟨h1, ha⟩, hb⟩ <;> rcases hu with hu | ⟨hu, hinc⟩
    · exact .inl (by omega)
    · exact .inl (by omega)
    · exact .inl (by omega)
    · exact .inr ⟨⟨by omega, ha⟩, hinc hb⟩
  · rcases h2 with h2 | ⟨⟨h2, ha⟩, hb⟩ <;> rcases hl with hl | ⟨hl, hinc⟩
    · exact .inl (by omega)
    · exact .inl (by omega)
    · exact .inl (by omega)
    · exact .inr ⟨⟨by omega, hinc ha⟩, hb⟩

/-! ## Difference of a period and a period set -/

lemma minusPeriodPeriod_within {p1 p2 : Period} :
    ∀ q ∈ minusPeriodPeriod p1 p2,
      (p1.lower < q.lower ∨ p1.lower = q.lower ∧ (q.lowerInc = true → p1.lowerInc = true)) ∧
        (q.upper < p1.upper ∨ q.upper = p1.upper ∧ (q.upperInc = true → p1.upperInc = true)) := by
  cases ho : overlapsPeriodPeriod p1 p2
  · simp [minusPeriodPeriod_of_not_overlaps ho]
  simp only [minusPeriodPeriod, ho, Bool.not_true, Bool.false_eq_true, if_false, List.mem_append,
    List.mem_ite_nil_right, List.mem_singleton]
  simp only [overlapsPeriodPeriod, Bool.and_eq_true, Bool.or_eq_true, decide_eq_true_eq,
    beq_iff_eq] at ho
  rintro q (⟨-, rfl⟩ | ⟨-, rfl⟩)
  · exact ⟨.inr ⟨rfl, id⟩, ho.2.imp id fun ⟨⟨h, _⟩, hj⟩ => ⟨h, fun _ => hj⟩⟩
  · exact ⟨ho.1.imp id fun ⟨⟨h, hi⟩, _⟩ => ⟨h, fun _ => hi⟩, .inr ⟨rfl, id⟩⟩

lemma Period.Precedes.of_upper_within {p q s : Period}
    (hq : q.upper < p.upper ∨ q.upper = p.upper ∧ (q.upperInc = true → p.upperInc = true))
    (h : p.Precedes s) : q.Precedes s := by
  rcases hq with hq | ⟨hq, hinc⟩
  · exact .inl (by rcases h with h | ⟨h, -⟩ <;> omega)
  · rcases h with h | ⟨h, hn⟩
    · exact .inl (by omega)
    · exact .inr ⟨by omega, fun hb => hn ⟨hinc hb.1, hb.2⟩⟩

lemma Period.Precedes.of_lower_within {p q s : Period}
    (hq : p.lower < q.lower ∨ p.lower = q.lower ∧ (q.lowerInc = true → p.lowerInc = true))
    (h : s.Precedes p) : s.Precedes q := by
  rcases hq with hq | ⟨hq, hinc⟩
  · exact .inl (by rcases h with h | ⟨h, -⟩ <;> omega)
  · rcases h with h | ⟨h, hn⟩
    · exact .inl (by omega)
    · exact .inr ⟨by omega, fun hb => hn ⟨hb.1, hinc hb.2⟩⟩

/-- One step of `minus_period_periodset_internal`, subtracting `q` from every piece. -/
private lemma exists_mem_flatMap_minusPeriodPeriod (acc : List Period) (q : Period) (t : ℤ) :
    (∃ r ∈ acc.flatMap fun p1 => minusPeriodPeriod p1 q, containsPeriodTimestamp r t = true) ↔
      (∃ p1 ∈ acc, containsPeriodTimestamp p1 t = true) ∧ containsPeriodTimestamp q t = false := by
  simp only [List.mem_flatMap]
  constructor
  · rintro ⟨r, ⟨p1, hp1, hr⟩, hrt⟩
    obtain ⟨h1, h2⟩ := (minusPeriodPeriod_contains t).mp ⟨r, hr, hrt⟩
    exact ⟨⟨p1, hp1, h1⟩, h2⟩
  · rintro ⟨⟨p1, hp1, h1⟩, h2⟩
    obtain ⟨r, hr, hrt⟩ := (minusPeriodPeriod_contains t).mpr ⟨h1, h2⟩
    exact ⟨r, ⟨p1, hp1, hr⟩, hrt⟩

theorem minusPeriodPeriodset_contains (p : Period) (ps : List Period) (t : ℤ) :
    (∃ q ∈ minusPeriodPeriodset p ps, containsPeriodTimestamp q t = true) ↔
      containsPeriodTimestamp p t = true ∧ containsPeriodsetTimestamp ps t = false := by
  suffices h : ∀ acc : List Period,
      (∃ q ∈ ps.foldl (fun acc q => acc.flatMap fun p1 => minusPeriodPeriod p1 q) acc,
        containsPeriodTimestamp q t = true) ↔
      (∃ p1 ∈ acc, containsPeriodTimestamp p1 t = true) ∧
        containsPeriodsetTimestamp ps t = false by
    simpa using h [p]
  induction ps with
  | nil => simp [containsPeriodsetTimestamp]
  | cons q ps ih =>
    intro acc
    rw [List.foldl_cons, ih, exists_mem_flatMap_minusPeriodPeriod]
    simp only [containsPeriodsetTimestamp, List.any_cons, Bool.or_eq_false_iff, and_assoc]

theorem minusPeriodPeriodset_valid {p : Period} (hv : p.Valid) (ps : List Period) :
    ∀ q ∈ minusPeriodPeriodset p ps, q.Valid := by
  suffices h : ∀ acc : List Period, (∀ q ∈ acc, q.Valid) →
      ∀ q ∈ ps.foldl (fun acc q => acc.flatMap fun p1 => minusPeriodPeriod p1 q) acc, q.Valid from
    h [p] (by simpa using hv)
  induction ps with
  | nil => exact fun acc h => h
  | cons q ps ih =>
    intro acc hacc
    refine ih _ fun r hr => ?_
    obtain ⟨p1, hp1, hr⟩ := List.mem_flatMap.mp hr
    exact minusPeriodPeriod_valid (hacc p1 hp1) r hr

theorem minusPeriodPeriodset_precedes (p : Period) {ps : List Period} (hv : ∀ q ∈ ps, q.Valid) :
    (minusPeriodPeriodset p ps).Pairwise Period.Precedes := by
  suffices h : ∀ acc : List Period, acc.Pairwise Period.Precedes →
      (ps.foldl (fun acc q => acc.flatMap fun p1 => minusPeriodPeriod p1 q) acc).Pairwise
        Period.Precedes from
    h [p] (List.pairwise_singleton _ _)
  induction ps with
  | nil => exact fun acc h => h
  | cons q ps ih =>
    intro acc hacc
    refine ih (fun r hr => hv r (List.mem_cons_of_mem _ hr)) _ (List.pairwise_flatMap.mpr
      ⟨fun _ _ => (minusPeriodPeriod_precedes (hv q (List.mem_cons_self _ _))).1,
        hacc.imp fun h r1 hr1 r2 hr2 => ?_⟩)
    exact (h.of_upper_within (minusPeriodPeriod_within r1 hr1).2).of_lower_within
      (minusPeriodPeriod_within r2 hr2).1

end TemporalSequence
