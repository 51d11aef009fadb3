import TemporalSequence.TimeLine
import TemporalSequence.Predicates
import TemporalSequence.Proofs.Normalize

/-!
# Ever and always on the time line

The ever/always operators decide a question about the function of time a sequence
denotes: whether it takes, at some or at every time of its span, a value equal to,
below or at most a base value. On the rational time line of `TimeLine` they answer it
exactly, given box tests that never rule out a positive answer. With step
interpolation a sequence takes exactly the values of its instants; with linear
interpolation a segment takes the values strictly between its end values, and each
end value when its bound is inclusive.

At the timestamps alone they do not: a segment one microsecond long with an
exclusive lower bound has a single timestamp in its span, and what the segment takes
before it is not seen there.
-/

namespace TemporalSequence

variable {V B : Type}

/-! ## Segments on the time line -/

section Segments

variable [DecidableEq V] {bt : BaseType V} {linear : Bool}

lemma instantsValueAtTime_cons_cons_of_lt {a b : TInstant V} {rest : List (TInstant V)} {t : ℚ}
    (h : t < b.t) :
    instantsValueAtTime bt linear (a :: b :: rest) t = instantsValueAtTime bt linear [a, b] t := by
  simp only [instantsValueAtTime_cons_cons, h, if_true]

/-- An array takes on its span the values its segments take on theirs, each segment
closed at its end only when it is the last one, as the loop of the operators reads
them. -/
lemma segmentsEver_iff_exists_time {p : V → Prop}
    {q : TInstant V → TInstant V → Bool → Bool → Bool}
    (hq : ∀ a b lowerInc upperInc, a.t < b.t → (q a b lowerInc upperInc = true ↔
      ∃ t, containsPeriodTime ⟨a.t, b.t, lowerInc, upperInc⟩ t = true ∧
        ∃ x, instantsValueAtTime bt linear [a, b] t = some x ∧ p x))
    (upperInc : Bool) :
    ∀ (a : TInstant V) (lowerInc : Bool) (rest : List (TInstant V)), rest ≠ [] →
      (a :: rest).Pairwise (fun a b => a.t < b.t) →
      (segmentsEver q upperInc a lowerInc rest = true ↔
        ∃ t, containsPeriodTime ⟨a.t, lastT (a :: rest), lowerInc, upperInc⟩ t = true ∧
          ∃ x, instantsValueAtTime bt linear (a :: rest) t = some x ∧ p x)
  | a, lowerInc, [b], _, hs => by
    simpa [segmentsEver] using hq a b lowerInc upperInc (List.rel_of_pairwise_cons hs (by simp))
  | a, lowerInc, b :: c :: rest, _, hs => by
    have hab : (a.t : ℚ) < b.t := by exact_mod_cast List.rel_of_pairwise_cons hs (by simp)
    have hbl : (b.t : ℚ) < lastT (c :: rest) := by
      have hbc : b.t < c.t := List.rel_of_pairwise_cons hs.of_cons (by simp)
      have hcl : c.t ≤ lastT (c :: rest) := le_lastT_of_getElem? hs.of_cons.of_cons (i := 0) (by simp)
      exact_mod_cast hbc.trans_le hcl
    rw [segmentsEver, Bool.or_eq_true, hq a b lowerInc _ (by exact_mod_cast hab),
      segmentsEver_iff_exists_time hq upperInc b true (c :: rest) (List.cons_ne_nil _ _) hs.of_cons]
    simp only [List.isEmpty_cons, Bool.false_eq_true, if_false, lastT_cons_cons,
      containsPeriodTime_iff, true_and, false_and, or_false]
    constructor
    · rintro (⟨t, ⟨h1, htb⟩, x, hx, hp⟩ | ⟨t, ⟨h1, h2⟩, x, hx, hp⟩)
      · -- a time of the first segment
        refine ⟨t, ⟨h1, .inl (htb.trans hbl)⟩, x, ?_, hp⟩
        rwa [instantsValueAtTime_cons_cons_of_lt htb]
      · -- a time of the segments after it
        have hbt : (b.t : ℚ) ≤ t := h1.elim le_of_lt le_of_eq
        refine ⟨t, ⟨.inl (hab.trans_le hbt), h2⟩, x, ?_, hp⟩
        rwa [instantsValueAtTime_cons_of_le hbt]
    · rintro ⟨t, ⟨h1, h2⟩, x, hx, hp⟩
      by_cases htb : t < b.t
      · exact .inl ⟨t, ⟨h1, htb⟩, x, by rwa [instantsValueAtTime_cons_cons_of_lt htb] at hx, hp⟩
      · have hbt : (b.t : ℚ) ≤ t := not_lt.mp htb
        exact .inr ⟨t, ⟨hbt.lt_or_eq, h2⟩, x,
          by rwa [instantsValueAtTime_cons_of_le hbt] at hx, hp⟩

/-- A step segment takes its start value before its end, and its end value at its
end when that bound is inclusive. -/
lemma exists_time_pair_step_iff {p : V → Prop} {a b : TInstant V} (lowerInc upperInc : Bool)
    (hab : a.t < b.t) :
    (∃ t, containsPeriodTime ⟨a.t, b.t, lowerInc, upperInc⟩ t = true ∧
      ∃ x, instantsValueAtTime bt false [a, b] t = some x ∧ p x) ↔
      p a.value ∨ upperInc = true ∧ p b.value := by
  have hab' : (a.t : ℚ) < b.t := by exact_mod_cast hab
  constructor
  · rintro ⟨t, ht, x, hx, hp⟩
    obtain ⟨h1, h2⟩ := bounds_of_containsPeriodTime ht
    rcases h2.lt_or_eq with htb | rfl
    · simp only [instantsValueAtTime_cons_cons, htb, h1, if_true, segmentValueAtTime, or_true,
        Option.some.injEq] at hx
      exact .inl (hx ▸ hp)
    · have hui : upperInc = true := ((containsPeriodTime_iff.mp ht).2.resolve_left (lt_irrefl _)).1
      simp only [instantsValueAtTime_cons_cons, lt_irrefl, if_false, instantsValueAtTime, if_true,
        Option.some.injEq] at hx
      exact .inr ⟨hui, hx ▸ hp⟩
  · rintro (hp | ⟨hui, hp⟩)
    · have hm1 : (a.t : ℚ) < (a.t + b.t) / 2 := by linarith
      have hm2 : (a.t + b.t) / 2 < (b.t : ℚ) := by linarith
      refine ⟨(a.t + b.t) / 2, containsPeriodTime_iff.mpr ⟨.inl hm1, .inl hm2⟩, a.value, ?_, hp⟩
      simp [instantsValueAtTime_cons_cons, hm2, hm1.le, segmentValueAtTime]
    · refine ⟨b.t, containsPeriodTime_iff.mpr ⟨.inl hab', .inr ⟨hui, rfl⟩⟩, b.value, ?_, hp⟩
      simp [instantsValueAtTime_cons_cons, instantsValueAtTime]

omit [DecidableEq V] in
lemma segmentsEver_step_eq_any (p : V → Bool) (upperInc : Bool) :
    ∀ (a : TInstant V) (lowerInc : Bool) (rest : List (TInstant V)), rest ≠ [] →
      (upperInc = false → ∀ x y, lastTwo? (a :: rest) = some (x, y) → x.value = y.value) →
      segmentsEver (fun a b _ upperInc => p a.value || (upperInc && p b.value)) upperInc a
        lowerInc rest = (a :: rest).any fun inst => p inst.value
  | a, lowerInc, [b], _, hend => by
    cases upperInc
    · simp [segmentsEver, hend rfl a b rfl]
    · simp [segmentsEver]
  | a, lowerInc, b :: c :: rest, _, hend => by
    rw [segmentsEver, segmentsEver_step_eq_any p upperInc b true (c :: rest) (List.cons_ne_nil _ _)
      fun h x y hl => hend h x y (by rw [← hl]; rfl)]
    simp

omit [DecidableEq V] in
lemma segmentsEver_map {α β : Type} (f : α → β) (p : β → β → Bool → Bool → Bool) (upperInc : Bool) :
    ∀ (x : α) (lowerInc : Bool) (l : List α),
      segmentsEver p upperInc (f x) lowerInc (l.map f) =
        segmentsEver (fun a b => p (f a) (f b)) upperInc x lowerInc l
  | _, _, [] => rfl
  | x, lowerInc, y :: l => by
    rw [List.map_cons, segmentsEver, segmentsEver, segmentsEver_map f p upperInc y true l]
    cases l <;> rfl

omit [DecidableEq V] in
lemma segmentsEver_ends_eq_any (p : V → Bool) (upperInc : Bool) :
    ∀ (a : TInstant V) (lowerInc : Bool) (rest : List (TInstant V)), rest ≠ [] →
      segmentsEver (fun a b _ _ => p a.value || p b.value) upperInc a lowerInc rest =
        (a :: rest).any fun inst => p inst.value
  | a, _, [b], _ => by simp [segmentsEver]
  | a, _, b :: c :: rest, _ => by
    rw [segmentsEver, segmentsEver_ends_eq_any p upperInc b true (c :: rest) (List.cons_ne_nil _ _)]
    simp only [List.any_cons, ← Bool.or_assoc, Bool.or_self_right]

lemma TSequence.everAtTime_single {seq : TSequence V B} (hwf : seq.WellFormed) {a : TInstant V}
    (hinst : seq.instants = [a]) (p : V → Prop) : seq.EverAtTime bt p ↔ p a.value := by
  have hbounds : seq.period.lowerInc = true ∧ seq.period.upperInc = true := by
    have := hwf.instantBounds
    simp only [hinst, List.length_singleton, true_and, not_or, Bool.not_eq_true'] at this
    simpa using this
  have hper : seq.period = ⟨a.t, a.t, true, true⟩ := by
    rw [hwf.period]
    simp [periodOf, lastT, hinst, hbounds]
  have hmem : containsPeriodTime ⟨a.t, a.t, true, true⟩ a.t = true := by simp [containsPeriodTime]
  simp only [TSequence.EverAtTime, TSequence.valueAtTime, hper, hinst]
  constructor
  · rintro ⟨t, ht, x, hx, hp⟩
    rw [if_pos ht, instantsValueAtTime] at hx
    split_ifs at hx
    exact Option.some_injective _ hx ▸ hp
  · exact fun hp => ⟨a.t, hmem, a.value, by simp [hmem, instantsValueAtTime], hp⟩

lemma TSequence.everAtTime_iff_segmentsEver {seq : TSequence V B} (hwf : seq.WellFormed)
    {a : TInstant V} {rest : List (TInstant V)} (hinst : seq.instants = a :: rest) (hrest : rest ≠ [])
    {p : V → Prop} {q : TInstant V → TInstant V → Bool → Bool → Bool}
    (hq : ∀ a b lowerInc upperInc, a.t < b.t → (q a b lowerInc upperInc = true ↔
      ∃ t, containsPeriodTime ⟨a.t, b.t, lowerInc, upperInc⟩ t = true ∧
        ∃ x, instantsValueAtTime bt seq.linear [a, b] t = some x ∧ p x)) :
    seq.EverAtTime bt p ↔ segmentsEver q seq.period.upperInc a seq.period.lowerInc rest = true := by
  have hper : seq.period = ⟨a.t, lastT (a :: rest), seq.period.lowerInc, seq.period.upperInc⟩ := by
    rw [hwf.period]
    simp [periodOf, hinst]
  have hs : (a :: rest).Pairwise (fun a b => a.t < b.t) := hinst ▸ chain'_t_iff_pairwise.mp hwf.increasing
  rw [segmentsEver_iff_exists_time hq _ a _ rest hrest hs, ← hper, ← hinst]
  simp only [TSequence.EverAtTime, TSequence.valueAtTime]
  exact exists_congr fun t => and_congr_right fun ht => by rw [if_pos ht]

/-- With step interpolation, or with a single instant, a well-formed sequence takes on
its span exactly the values of its instants. -/
theorem TSequence.everAtTime_iff_exists_instant {seq : TSequence V B} (hwf : seq.WellFormed)
    (h : seq.linear = false ∨ seq.instants.length = 1) (p : V → Prop) [DecidablePred p] :
    seq.EverAtTime bt p ↔ ∃ inst ∈ seq.instants, p inst.value := by
  obtain ⟨a, rest, hinst⟩ := List.exists_cons_of_ne_nil hwf.nonempty
  rcases rest with _ | ⟨b, rest⟩
  · simp [TSequence.everAtTime_single hwf hinst, hinst]
  · have hstep : seq.linear = false := h.resolve_right (by simp [hinst])
    have hend : seq.period.upperInc = false → ∀ x y, lastTwo? (a :: b :: rest) = some (x, y) →
        x.value = y.value := fun hui x y hl => by
      have := hwf.endValue
      simp only [hstep, hui, hinst, hl, Bool.not_false, true_and, Option.any_some, and_true,
        decide_eq_true_eq, not_not] at this
      exact this
    rw [TSequence.everAtTime_iff_segmentsEver hwf hinst (List.cons_ne_nil _ _)
      (q := fun a b _ upperInc => decide (p a.value) || (upperInc && decide (p b.value)))
      fun a b lowerInc upperInc hab => by
        rw [hstep, exists_time_pair_step_iff lowerInc upperInc hab]
        simp,
      segmentsEver_step_eq_any (fun v => decide (p v)) _ a _ _ (List.cons_ne_nil _ _) hend, hinst]
    simp

end Segments

/-! ## Linear segments of temporal floats -/

section Float

variable (ε : ℚ)

lemma instantsValueAtTime_pair_tfloat {a b : TInstant ℚ} {t : ℚ} (hab : (a.t : ℚ) < b.t)
    (h1 : (a.t : ℚ) ≤ t) (h2 : t ≤ b.t) :
    instantsValueAtTime (tfloat ε) true [a, b] t =
      some (a.value + (b.value - a.value) * ((t - a.t) / (b.t - a.t))) := by
  rcases h2.lt_or_eq with h2 | rfl
  · simp only [instantsValueAtTime_cons_cons, h2, h1, if_true, segmentValueAtTime, tfloat,
      Bool.true_eq_false, or_false, Option.some.injEq]
    split_ifs with hv
    · rw [hv, sub_self, zero_mul, add_zero]
    · rfl
  · have hd : (b.t : ℚ) - a.t ≠ 0 := sub_ne_zero.mpr hab.ne'
    simp [instantsValueAtTime_cons_cons, instantsValueAtTime, div_self hd]

/-- A time of the span of a linear float segment is a fraction of its duration, with
the bounds of the segment. -/
lemma exists_time_pair_tfloat_iff {p : ℚ → Prop} {a b : TInstant ℚ} (lowerInc upperInc : Bool)
    (hab : a.t < b.t) :
    (∃ t, containsPeriodTime ⟨a.t, b.t, lowerInc, upperInc⟩ t = true ∧
      ∃ x, instantsValueAtTime (tfloat ε) true [a, b] t = some x ∧ p x) ↔
      ∃ r : ℚ, ((0 < r ∨ lowerInc = true ∧ r = 0) ∧ (r < 1 ∨ upperInc = true ∧ r = 1)) ∧
        p (a.value + (b.value - a.value) * r) := by
  have hab' : (a.t : ℚ) < b.t := by exact_mod_cast hab
  have hd : (0 : ℚ) < b.t - a.t := sub_pos.mpr hab'
  constructor
  · rintro ⟨t, ht, x, hx, hp⟩
    obtain ⟨h1, h2⟩ := bounds_of_containsPeriodTime ht
    rw [instantsValueAtTime_pair_tfloat ε hab' h1 h2, Option.some.injEq] at hx
    refine ⟨(t - a.t) / (b.t - a.t), ?_, hx ▸ hp⟩
    obtain ⟨hl, hu⟩ := containsPeriodTime_iff.mp ht
    refine ⟨hl.imp (fun h => div_pos (sub_pos.mpr h) hd) fun ⟨hli, h⟩ => ⟨hli, by simp [← h]⟩,
      hu.imp (fun h => (div_lt_one hd).mpr (by simpa using h)) fun ⟨hui, h⟩ => ⟨hui, ?_⟩⟩
    simp only at h
    rw [h, div_self hd.ne']
  · rintro ⟨r, ⟨hl, hu⟩, hp⟩
    -- the time at the fraction `r` of the segment
    have hr : (a.t + r * (b.t - a.t) - a.t) / (b.t - a.t) = r := by field_simp
    have hr0 : 0 ≤ r := hl.elim le_of_lt fun h => h.2.ge
    have hr1 : r ≤ 1 := hu.elim le_of_lt fun h => h.2.le
    refine ⟨a.t + r * (b.t - a.t), containsPeriodTime_iff.mpr ⟨?_, ?_⟩, _,
      instantsValueAtTime_pair_tfloat ε hab' (le_add_of_nonneg_right (mul_nonneg hr0 hd.le)) ?_,
      by rwa [hr]⟩
    · exact hl.imp (fun h => lt_add_of_pos_right _ (mul_pos h hd)) fun ⟨hli, h⟩ => ⟨hli, by simp [h]⟩
    · exact hu.imp (fun h => by have := mul_lt_mul_of_pos_right h hd; dsimp only; linarith)
        fun ⟨hui, h⟩ => ⟨hui, by simp [h]⟩
    · have := mul_le_mul_of_nonneg_right hr1 hd.le
      linarith

lemma exists_fraction_lt_of_start_lt (value2 : ℚ) {value1 value : ℚ} (h : value1 < value) :
    ∃ r : ℚ, 0 < r ∧ r < 1 ∧ value1 + (value2 - value1) * r < value := by
  rcases le_or_lt value2 value1 with h21 | h12
  · exact ⟨1 / 2, by norm_num, by norm_num, by linarith⟩
  · have hd : 0 < value2 - value1 := sub_pos.mpr h12
    refine ⟨min (1 / 2) ((value - value1) / (2 * (value2 - value1))),
      lt_min (by norm_num) (div_pos (sub_pos.mpr h) (by linarith)),
      (min_le_left _ _).trans_lt (by norm_num), ?_⟩
    calc value1 + (value2 - value1) * min (1 / 2) ((value - value1) / (2 * (value2 - value1)))
        ≤ value1 + (value2 - value1) * ((value - value1) / (2 * (value2 - value1))) := by
          gcongr
          exact min_le_right _ _
      _ = value1 + (value - value1) / 2 := by field_simp; ring
      _ < value := by linarith

lemma exists_fraction_lt_of_end_lt (value1 : ℚ) {value2 value : ℚ} (h : value2 < value) :
    ∃ r : ℚ, 0 < r ∧ r < 1 ∧ value1 + (value2 - value1) * r < value := by
  obtain ⟨r, h0, h1, hr⟩ := exists_fraction_lt_of_start_lt value1 h
  refine ⟨1 - r, by linarith, by linarith, ?_⟩
  calc value1 + (value2 - value1) * (1 - r) = value2 + (value1 - value2) * r := by ring
    _ < value := hr

/-- `tlinearseq_ever_le1` decides whether the segment from `value1` to `value2` is at
most `value` at some fraction of its duration, each end included as its bound is. -/
lemma tlinearseqEverLe1_iff (value1 value2 : ℚ) (lowerInc upperInc : Bool) (value : ℚ) :
    tlinearseqEverLe1 value1 value2 lowerInc upperInc value = true ↔
      ∃ r : ℚ, ((0 < r ∨ lowerInc = true ∧ r = 0) ∧ (r < 1 ∨ upperInc = true ∧ r = 1)) ∧
        value1 + (value2 - value1) * r ≤ value := by
  unfold tlinearseqEverLe1
  split_ifs with h12 hlt
  · -- a constant segment
    subst h12
    simp only [decide_eq_true_eq, sub_self, zero_mul, add_zero]
    exact ⟨fun h => ⟨1 / 2, ⟨.inl (by norm_num), .inl (by norm_num)⟩, h⟩, fun ⟨_, _, h⟩ => h⟩
  · -- an increasing segment is lowest at its start
    simp only [Bool.or_eq_true, decide_eq_true_eq, Bool.and_eq_true]
    constructor
    · rintro (h | ⟨hli, rfl⟩)
      · obtain ⟨r, h0, h1, hr⟩ := exists_fraction_lt_of_start_lt value2 h
        exact ⟨r, ⟨.inl h0, .inl h1⟩, hr.le⟩
      · exact ⟨0, ⟨.inr ⟨hli, rfl⟩, .inl one_pos⟩, by simp⟩
    · rintro ⟨r, ⟨hr | ⟨hli, rfl⟩, -⟩, h⟩
      · exact .inl (by nlinarith [mul_pos (sub_pos.mpr hlt) hr])
      · simp only [mul_zero, add_zero] at h
        exact h.lt_or_eq.imp id fun h => ⟨hli, h⟩
  · -- a decreasing segment is lowest at its end
    have hd : 0 < value1 - value2 := sub_pos.mpr (lt_of_le_of_ne (not_lt.mp hlt) (Ne.symm h12))
    simp only [Bool.or_eq_true, decide_eq_true_eq, Bool.and_eq_true]
    constructor
    · rintro (h | ⟨hui, rfl⟩)
      · obtain ⟨r, h0, h1, hr⟩ := exists_fraction_lt_of_end_lt value1 h
        exact ⟨r, ⟨.inl h0, .inl h1⟩, hr.le⟩
      · exact ⟨1, ⟨.inl one_pos, .inr ⟨hui, rfl⟩⟩, by simp⟩
    · rintro ⟨r, ⟨-, hr | ⟨hui, rfl⟩⟩, h⟩
      · exact .inl (by nlinarith [mul_pos hd (sub_pos.mpr hr)])
      · simp only [mul_one, add_sub_cancel] at h
        exact h.lt_or_eq.imp id fun h => ⟨hui, h⟩

lemma exists_fraction_lt_iff (value1 value2 : ℚ) (lowerInc upperInc : Bool) (value : ℚ) :
    (value1 < value ∨ value2 < value) ↔
      ∃ r : ℚ, ((0 < r ∨ lowerInc = true ∧ r = 0) ∧ (r < 1 ∨ upperInc = true ∧ r = 1)) ∧
        value1 + (value2 - value1) * r < value := by
  constructor
  · rintro (h | h)
    · obtain ⟨r, h0, h1, hr⟩ := exists_fraction_lt_of_start_lt value2 h
      exact ⟨r, ⟨.inl h0, .inl h1⟩, hr⟩
    · obtain ⟨r, h0, h1, hr⟩ := exists_fraction_lt_of_end_lt value1 h
      exact ⟨r, ⟨.inl h0, .inl h1⟩, hr⟩
  · rintro ⟨r, ⟨hl, hu⟩, h⟩
    -- a value of the segment lies between its end values
    have hr0 : 0 ≤ r := hl.elim le_of_lt fun h => h.2.ge
    have hr1 : r ≤ 1 := hu.elim le_of_lt fun h => h.2.le
    by_contra hn
    push_neg at hn
    nlinarith [mul_nonneg hr0 (sub_nonneg.mpr hn.2), mul_nonneg (sub_nonneg.mpr hr1) (sub_nonneg.mpr hn.1)]

/-- A float array takes no value below all of its instants. -/
lemma exists_instant_le_of_instantsValueAtTime {linear : Bool} :
    ∀ {instants : List (TInstant ℚ)} {t x : ℚ},
      instantsValueAtTime (tfloat ε) linear instants t = some x → ∃ inst ∈ instants, inst.value ≤ x
  | [a], t, x, h => by
    simp only [instantsValueAtTime] at h
    split_ifs at h
    exact ⟨a, List.mem_singleton_self _, (Option.some_injective _ h).le⟩
  | a :: b :: rest, t, x, h => by
    rw [instantsValueAtTime_cons_cons] at h
    split_ifs at h with h2 h1
    · obtain rfl := Option.some_injective _ h
      unfold segmentValueAtTime
      split_ifs with hv
      · exact ⟨a, List.mem_cons_self _ _, le_rfl⟩
      · -- a convex combination of the two end values
        have hd : (0 : ℚ) < b.t - a.t := by linarith
        have hr0 : 0 ≤ (t - a.t) / (b.t - a.t) := div_nonneg (by linarith) hd.le
        have hr1 : (t - a.t) / (b.t - a.t) ≤ 1 := (div_le_one hd).mpr (by linarith)
        simp only [tfloat]
        rcases le_total a.value b.value with hab | hab
        · exact ⟨a, List.mem_cons_self _ _,
            le_add_of_nonneg_right (mul_nonneg (sub_nonneg.mpr hab) hr0)⟩
        · exact ⟨b, List.mem_cons_of_mem _ (List.mem_cons_self _ _),
            by linarith [mul_nonneg (sub_nonneg.mpr hab) (sub_nonneg.mpr hr1)]⟩
    · obtain ⟨inst, hmem, hle⟩ := exists_instant_le_of_instantsValueAtTime h
      exact ⟨inst, List.mem_cons_of_mem _ hmem, hle⟩

variable {B : Type} {bx : BBoxOps ℚ B}

/-- A linear float sequence of at least two instants is at most `value` somewhere on
its span exactly when the loop of `tsequence_ever_le` finds a segment that is. -/
lemma TSequence.everAtTime_le_iff_tfloat {seq : TSequence ℚ B} (hwf : seq.WellFormed)
    (hlin : seq.linear = true) {a : TInstant ℚ} {rest : List (TInstant ℚ)}
    (hinst : seq.instants = a :: rest) (hrest : rest ≠ []) (value : ℚ) :
    seq.EverAtTime (tfloat ε) (· ≤ value) ↔
      segmentsEver (fun value1 value2 lowerInc upperInc =>
        tlinearseqEverLe1 value1 value2 lowerInc upperInc value)
        seq.period.upperInc a.value seq.period.lowerInc (rest.map TInstant.value) = true := by
  rw [segmentsEver_map, TSequence.everAtTime_iff_segmentsEver hwf hinst hrest]
  intro a b lowerInc upperInc hab
  rw [hlin, exists_time_pair_tfloat_iff ε lowerInc upperInc hab, tlinearseqEverLe1_iff]

lemma TSequence.everAtTime_lt_iff_tfloat {seq : TSequence ℚ B} (hwf : seq.WellFormed)
    (hlin : seq.linear = true) (value : ℚ) :
    seq.EverAtTime (tfloat ε) (· < value) ↔ ∃ inst ∈ seq.instants, inst.value < value := by
  obtain ⟨a, rest, hinst⟩ := List.exists_cons_of_ne_nil hwf.nonempty
  rcases rest with _ | ⟨b, rest⟩
  · exact TSequence.everAtTime_iff_exists_instant hwf (.inr (by simp [hinst])) _
  · rw [TSequence.everAtTime_iff_segmentsEver hwf hinst (List.cons_ne_nil _ _)
      (q := fun a b _ _ => decide (a.value < value) || decide (b.value < value))
      fun a b lowerInc upperInc hab => by
        rw [hlin, exists_time_pair_tfloat_iff ε lowerInc upperInc hab,
          ← exists_fraction_lt_iff]
        simp,
      segmentsEver_ends_eq_any (fun v => decide (v < value)) _ a _ _ (List.cons_ne_nil _ _), hinst]
    simp

end Float

/-! ## The operators -/

section Operators

section Equality

variable [DecidableEq V]

/-- What `ever_eq` and `always_eq` need of the box tests, which are not part of the
source, on the box of `seq` and the value `value`: a test never rules out a sequence
whose instants allow a positive answer, and for numbers and points the test of
`always_eq` decides. -/
structure BBoxTests.EqSound (tests : BBoxTests V B) (seq : TSequence V B) (value : V) : Prop where
  everEq : (∃ inst ∈ seq.instants, inst.value = value) → tests.everEq seq.bbox value = true
  alwaysEq : (∀ inst ∈ seq.instants, inst.value = value) → tests.alwaysEq seq.bbox value = true
  alwaysEq_decides : tests.numericOrPoint = true → tests.alwaysEq seq.bbox value = true →
    ∀ inst ∈ seq.instants, inst.value = value

omit [DecidableEq V] in
lemma boxTest_iff {box answer : Bool} {P : Prop} (hbox : P → box = true)
    (h : box = true → (answer = true ↔ P)) : (if !box then false else answer) = true ↔ P := by
  cases box
  · simpa using fun hp => hbox hp
  · simpa using h rfl

lemma value_ne_of_tinstantarrNormalize_step {bt : BaseType V} {a b c : TInstant V}
    {rest : List (TInstant V)}
    (h : tinstantarrNormalize bt (a :: b :: c :: rest) false = a :: b :: c :: rest) :
    a.value ≠ b.value := by
  intro hab
  have hlen := congrArg List.length h
  have hle := (tinstantarrNormalizeLoop_sublist bt false a c rest).length_le
  simp only [tinstantarrNormalize, tinstantarrNormalizeLoop_cons, normalizeRedundant, hab, beq_self_eq_true,
    Bool.not_false, Bool.true_and, Bool.true_or, if_true, List.length_cons] at hlen hle
  omega

variable {bt : BaseType V} {bx : BBoxOps V B} {tests : BBoxTests V B} {seq : TSequence V B}
  {value : V}

lemma tsequenceEverEq_iff_everAtTime (hwf : seq.WellFormed) (hstep : seq.linear = false)
    (hs : tests.EqSound seq value) :
    tsequenceEverEq bt tests seq value = true ↔ seq.EverAtTime bt (· = value) := by
  rw [TSequence.everAtTime_iff_exists_instant hwf (.inl hstep)]
  exact boxTest_iff hs.everEq fun _ => by simp [hstep]

/-- With step interpolation, `tsequence_always_eq` answers whether the sequence equals
`value` on all its span: the box test decides for numbers and points, and a normalized
step sequence of more than two instants takes two values. -/
lemma tsequenceAlwaysEq_iff_alwaysAtTime (hv : seq.Valid bt bx) (hstep : seq.linear = false)
    (hs : tests.EqSound seq value) :
    tsequenceAlwaysEq tests seq value = true ↔ seq.AlwaysAtTime bt (· = value) := by
  rw [TSequence.alwaysAtTime_iff_not_everAtTime hv.wellFormed,
    TSequence.everAtTime_iff_exists_instant hv.wellFormed (.inl hstep)]
  simp only [not_exists, not_and, not_not]
  refine boxTest_iff hs.alwaysEq fun hbox => ?_
  split_ifs with hnp hlen
  · exact ⟨fun _ => hs.alwaysEq_decides hnp hbox, fun _ => rfl⟩
  · have hnorm := hv.normalized
    match hinst : seq.instants, hlen with
    | a :: b :: c :: rest, _ =>
      rw [hinst, hstep] at hnorm
      have hab := value_ne_of_tinstantarrNormalize_step hnorm
      simp only [Bool.false_eq_true, false_iff]
      exact fun h => hab ((h a (by simp)).trans (h b (by simp)).symm)
  · simp

end Equality

section Order

variable [LinearOrder V]

/-- What all the ever/always operators need of the box tests: the tests of `ever_eq`
and `always_eq` are sound, and the test of `ever_lt` and `ever_le` never rules out a
sequence with an instant at most the value. -/
structure BBoxTests.Sound (tests : BBoxTests V B) (seq : TSequence V B) (value : V)
    extends tests.EqSound seq value : Prop where
  everLtLe : (∃ inst ∈ seq.instants, inst.value ≤ value) → tests.everLtLe seq.bbox value = true

variable {bt : BaseType V} {bx : BBoxOps V B} {tests : BBoxTests V B} {seq : TSequence V B}
  {value : V}

lemma tsequenceEverLe_iff_everAtTime (hwf : seq.WellFormed)
    (h : seq.linear = false ∨ seq.instants.length = 1) (hs : tests.Sound seq value) :
    tsequenceEverLe tests seq value = true ↔ seq.EverAtTime bt (· ≤ value) := by
  rw [TSequence.everAtTime_iff_exists_instant hwf h]
  refine boxTest_iff hs.everLtLe fun _ => ?_
  rw [if_pos (by rcases h with h | h <;> simp [h])]
  simp

lemma tsequenceEverLt_iff_everAtTime (hs : tests.Sound seq value)
    (hspec : seq.EverAtTime bt (· < value) ↔ ∃ inst ∈ seq.instants, inst.value < value) :
    tsequenceEverLt tests seq value = true ↔ seq.EverAtTime bt (· < value) := by
  rw [hspec]
  exact boxTest_iff (fun ⟨inst, hm, hlt⟩ => hs.everLtLe ⟨inst, hm, hlt.le⟩) fun _ => by
    simp [tsequenceEverLt]

end Order

end Operators

/-- With linear interpolation, `tsequence_ever_le` answers whether a temporal float is
at most `value` somewhere on its span. -/
lemma tsequenceEverLe_iff_everAtTime_tfloat (ε : ℚ) {seq : TSequence ℚ B} {tests : BBoxTests ℚ B}
    {value : ℚ} (hwf : seq.WellFormed) (hlin : seq.linear = true) (hs : tests.Sound seq value) :
    tsequenceEverLe tests seq value = true ↔ seq.EverAtTime (tfloat ε) (· ≤ value) := by
  obtain ⟨a, rest, hinst⟩ := List.exists_cons_of_ne_nil hwf.nonempty
  rcases rest with _ | ⟨b, rest⟩
  · exact tsequenceEverLe_iff_everAtTime hwf (.inr (by simp [hinst])) hs
  · refine boxTest_iff (fun ⟨t, ht, x, hx, hle⟩ => hs.everLtLe ?_) fun _ => ?_
    · obtain ⟨inst, hm, hi⟩ := exists_instant_le_of_instantsValueAtTime ε
        (by simpa [TSequence.valueAtTime, ht] using hx)
      exact ⟨inst, hm, hi.trans hle⟩
    · rw [TSequence.everAtTime_le_iff_tfloat ε hwf hlin hinst (List.cons_ne_nil _ _)]
      simp [hlin, hinst]

/-! ## Ever and always on the time line -/

/-- Box tests on the value extent of a `TBox`: each passes exactly when the extent
allows a positive answer. -/
def tnumberBBoxTests : BBoxTests ℚ TBox where
  everEq box value := box.xmin ≤ value && value ≤ box.xmax
  alwaysEq box value := box.xmin = value && box.xmax = value
  everLtLe box value := box.xmin ≤ value
  alwaysLtLe box value := box.xmax ≤ value
  numericOrPoint := true
  numeric := true

/-- On the time line the ever/always operators answer exactly, given sound box tests:
for every valid step sequence, `ever_eq` and `always_eq` of a base type with equality,
and `ever_le` and `ever_lt` of an ordered one; for every valid linear temporal float,
`ever_le` and `ever_lt`. -/
theorem tsequence_ever_always_iff_time_line :
    (∀ {V B : Type} [DecidableEq V] (bt : BaseType V) (bx : BBoxOps V B) (tests : BBoxTests V B)
        (seq : TSequence V B) (value : V), seq.Valid bt bx → seq.linear = false →
        tests.EqSound seq value →
        (tsequenceEverEq bt tests seq value = true ↔ seq.EverAtTime bt (· = value)) ∧
        (tsequenceAlwaysEq tests seq value = true ↔ seq.AlwaysAtTime bt (· = value))) ∧
    (∀ {V B : Type} [LinearOrder V] (bt : BaseType V) (bx : BBoxOps V B) (tests : BBoxTests V B)
        (seq : TSequence V B) (value : V), seq.Valid bt bx → seq.linear = false →
        tests.Sound seq value →
        (tsequenceEverLe tests seq value = true ↔ seq.EverAtTime bt (· ≤ value)) ∧
        (tsequenceEverLt tests seq value = true ↔ seq.EverAtTime bt (· < value))) ∧
    (∀ {B : Type} (ε : ℚ) (bx : BBoxOps ℚ B) (tests : BBoxTests ℚ B) (seq : TSequence ℚ B)
        (value : ℚ), seq.Valid (tfloat ε) bx → seq.linear = true → tests.Sound seq value →
        (tsequenceEverLe tests seq value = true ↔ seq.EverAtTime (tfloat ε) (· ≤ value)) ∧
        (tsequenceEverLt tests seq value = true ↔ seq.EverAtTime (tfloat ε) (· < value))) :=
  ⟨fun _ _ _ _ _ hv hstep hs =>
    ⟨tsequenceEverEq_iff_everAtTime hv.wellFormed hstep hs,
      tsequenceAlwaysEq_iff_alwaysAtTime hv hstep hs⟩,
    fun _ _ _ _ _ hv hstep hs =>
    ⟨tsequenceEverLe_iff_everAtTime hv.wellFormed (.inl hstep) hs,
      tsequenceEverLt_iff_everAtTime hs
        (TSequence.everAtTime_iff_exists_instant hv.wellFormed (.inl hstep) _)⟩,
    fun ε _ _ _ _ hv hlin hs =>
    ⟨tsequenceEverLe_iff_everAtTime_tfloat ε hv.wellFormed hlin hs,
      tsequenceEverLt_iff_everAtTime hs (TSequence.everAtTime_lt_iff_tfloat ε hv.wellFormed hlin _)⟩⟩

/-- The valid step temporal float (1@0, 5@1\] is equal to 1 somewhere on its span, and
`tsequence_ever_eq` says so; the valid linear temporal float (1@0, 5@2\] is below 3
somewhere on its span, and `tsequence_ever_lt` says so. -/
theorem tsequence_ever_always_iff_time_line_floats :
    (⟨[⟨1, 0⟩, ⟨5, 1⟩], ⟨0, 1, false, true⟩, false, ⟨1, 5, 0, 1⟩⟩ : TSequence ℚ TBox).Valid
      (tfloat (1 / 100000)) (tnumberBBox id) ∧
    tnumberBBoxTests.EqSound ⟨[⟨1, 0⟩, ⟨5, 1⟩], ⟨0, 1, false, true⟩, false, ⟨1, 5, 0, 1⟩⟩ 1 ∧
    (tsequenceEverEq (tfloat (1 / 100000)) tnumberBBoxTests
        ⟨[⟨1, 0⟩, ⟨5, 1⟩], ⟨0, 1, false, true⟩, false, ⟨1, 5, 0, 1⟩⟩ 1 = true ↔
      TSequence.EverAtTime (tfloat (1 / 100000))
        (⟨[⟨1, 0⟩, ⟨5, 1⟩], ⟨0, 1, false, true⟩, false, ⟨1, 5, 0, 1⟩⟩ : TSequence ℚ TBox)
        (· = 1)) ∧
    (⟨[⟨1, 0⟩, ⟨5, 2⟩], ⟨0, 2, false, true⟩, true, ⟨1, 5, 0, 2⟩⟩ : TSequence ℚ TBox).Valid
      (tfloat (1 / 100000)) (tnumberBBox id) ∧
    tnumberBBoxTests.Sound ⟨[⟨1, 0⟩, ⟨5, 2⟩], ⟨0, 2, false, true⟩, true, ⟨1, 5, 0, 2⟩⟩ 3 ∧
    (tsequenceEverLt tnumberBBoxTests
        ⟨[⟨1, 0⟩, ⟨5, 2⟩], ⟨0, 2, false, true⟩, true, ⟨1, 5, 0, 2⟩⟩ 3 = true ↔
      TSequence.EverAtTime (tfloat (1 / 100000))
        (⟨[⟨1, 0⟩, ⟨5, 2⟩], ⟨0, 2, false, true⟩, true, ⟨1, 5, 0, 2⟩⟩ : TSequence ℚ TBox)
        (· < 3)) := by
  have hv : (⟨[⟨1, 0⟩, ⟨5, 1⟩], ⟨0, 1, false, true⟩, false, ⟨1, 5, 0, 1⟩⟩ :
      TSequence ℚ TBox).Valid (tfloat (1 / 100000)) (tnumberBBox id) := by
    simp [TSequence.valid_iff, lastTwo?, periodOf, lastT, tinstantarrNormalize,
      tinstantarrNormalizeLoop, tnumberBBox, tboxExpand]
  have hs : tnumberBBoxTests.EqSound
      (⟨[⟨1, 0⟩, ⟨5, 1⟩], ⟨0, 1, false, true⟩, false, ⟨1, 5, 0, 1⟩⟩ : TSequence ℚ TBox) 1 :=
    ⟨fun _ => by norm_num [tnumberBBoxTests], fun h => absurd (h ⟨5, 1⟩ (by simp)) (by norm_num),
      fun _ h => by norm_num [tnumberBBoxTests] at h⟩
  have hvl : (⟨[⟨1, 0⟩, ⟨5, 2⟩], ⟨0, 2, false, true⟩, true, ⟨1, 5, 0, 2⟩⟩ :
      TSequence ℚ TBox).Valid (tfloat (1 / 100000)) (tnumberBBox id) := by
    simp [TSequence.valid_iff, lastTwo?, periodOf, lastT, tinstantarrNormalize,
      tinstantarrNormalizeLoop, tnumberBBox, tboxExpand]
  have hsl : tnumberBBoxTests.Sound
      (⟨[⟨1, 0⟩, ⟨5, 2⟩], ⟨0, 2, false, true⟩, true, ⟨1, 5, 0, 2⟩⟩ : TSequence ℚ TBox) 3 :=
    ⟨⟨fun _ => by norm_num [tnumberBBoxTests], fun h => absurd (h ⟨5, 2⟩ (by simp)) (by norm_num),
      fun _ h => by norm_num [tnumberBBoxTests] at h⟩, fun _ => by norm_num [tnumberBBoxTests]⟩
  have h := tsequence_ever_always_iff_time_line
  exact ⟨hv, hs, (h.1 _ _ _ _ _ hv rfl hs).1, hvl, hsl, (h.2.2 _ _ _ _ _ hvl rfl hsl).2⟩

/-- At the timestamps alone the answer differs: the valid step temporal float
(1@0, 5@1\] is 5 at the only timestamp of its span, yet `tsequence_ever_eq` says it is
ever 1, which it is on the time line before 1. -/
theorem tsequence_ever_eq_between_timestamps :
    (⟨[⟨1, 0⟩, ⟨5, 1⟩], ⟨0, 1, false, true⟩, false, ⟨1, 5, 0, 1⟩⟩ : TSequence ℚ TBox).Valid
      (tfloat (1 / 100000)) (tnumberBBox id) ∧
    tsequenceEverEq (tfloat (1 / 100000)) tnumberBBoxTests
      ⟨[⟨1, 0⟩, ⟨5, 1⟩], ⟨0, 1, false, true⟩, false, ⟨1, 5, 0, 1⟩⟩ 1 = true ∧
    (∀ t : ℤ, containsPeriodTimestamp ⟨0, 1, false, true⟩ t = true →
      TSequence.valueAt (tfloat (1 / 100000))
        (⟨[⟨1, 0⟩, ⟨5, 1⟩], ⟨0, 1, false, true⟩, false, ⟨1, 5, 0, 1⟩⟩ : TSequence ℚ TBox) t =
        some 5) ∧
    TSequence.valueAtTime (tfloat (1 / 100000))
      (⟨[⟨1, 0⟩, ⟨5, 1⟩], ⟨0, 1, false, true⟩, false, ⟨1, 5, 0, 1⟩⟩ : TSequence ℚ TBox) (1 / 2) =
      some 1 := by
  refine ⟨?_, ?_, fun t ht => ?_, ?_⟩
  · simp [TSequence.valid_iff, lastTwo?, periodOf, lastT, tinstantarrNormalize,
      tinstantarrNormalizeLoop, tnumberBBox, tboxExpand]
  · norm_num [tsequenceEverEq, tnumberBBoxTests]
  · obtain rfl : t = 1 := by
      rw [containsPeriodTimestamp_iff] at ht
      simp only [Bool.false_eq_true, false_and, or_false, true_and] at ht
      omega
    rfl
  · norm_num [TSequence.valueAtTime, containsPeriodTime, instantsValueAtTime, segmentValueAtTime]

end TemporalSequence
