import TemporalSequence.Integral
import TemporalSequence.Proofs.RestrictPeriod
import TemporalSequence.Proofs.NormalizeValues
import TemporalSequence.Proofs.Synchronize
import Mathlib.Algebra.BigOperators.Group.Finset

/-!
# Additivity of the integral

With timestamps whole numbers, the area under a float sequence is the sum of the
areas of its unit intervals `[s, s + 1]`: with linear interpolation the values on a
segment lie on a line, whose trapezoid is the sum of the unit trapezoids under it;
with step interpolation a segment keeps its start value. So `tnumberseq_integral`
depends only on the values of the instant array at the timestamps of its span, and
the two parts `tsequence_at_period` cuts at an interior timestamp add up to the whole.
-/

namespace TemporalSequence

variable {B : Type}

/-! ## Unit areas -/

/-- The area under the values `f` on the unit interval `[s, s + 1]`: a trapezoid with
linear interpolation, the rectangle of the left value with step interpolation. -/
def unitArea (linear : Bool) (f : ℤ → ℚ) (s : ℤ) : ℚ :=
  if linear then (f s + f (s + 1)) / 2 else f s

/-- The area under the values `f` on the `n` unit intervals from `a`. -/
def areaFrom (linear : Bool) (f : ℤ → ℚ) (a : ℤ) (n : ℕ) : ℚ :=
  ∑ j ∈ Finset.range n, unitArea linear f (a + j)

lemma areaFrom_add (linear : Bool) (f : ℤ → ℚ) (a : ℤ) (m n : ℕ) :
    areaFrom linear f a (m + n) = areaFrom linear f a m + areaFrom linear f (a + m) n := by
  simp only [areaFrom, Finset.sum_range_add, Nat.cast_add, add_assoc]

lemma areaFrom_line {f : ℤ → ℚ} {a : ℤ} {α c : ℚ} :
    ∀ {n : ℕ}, (∀ j : ℕ, j ≤ n → f (a + j) = α + c * j) →
      areaFrom true f a n = n * (2 * α + c * n) / 2
  | 0, _ => by simp [areaFrom]
  | n + 1, hf => by
    rw [areaFrom, Finset.sum_range_succ, ← areaFrom, areaFrom_line fun j hj => hf j (by omega)]
    have hend : f (a + n + 1) = α + c * (n + 1 : ℕ) := by
      rw [← hf (n + 1) le_rfl]
      push_cast
      ring_nf
    simp only [unitArea, if_true, hf n (by omega), hend]
    push_cast
    ring

lemma areaFrom_const {f : ℤ → ℚ} {a : ℤ} {v : ℚ} {n : ℕ} (hf : ∀ j : ℕ, j < n → f (a + j) = v) :
    areaFrom false f a n = n * v := by
  rw [areaFrom, Finset.sum_congr rfl fun j hj => by rw [unitArea, if_neg Bool.false_ne_true,
    hf j (Finset.mem_range.mp hj)], Finset.sum_const, Finset.card_range, nsmul_eq_mul]

/-! ## The integral of an instant array -/

section Array

variable {ε : ℚ} {linear : Bool} {f : ℤ → ℚ}

lemma lineAt_eq_affine {inst1 inst2 : TInstant ℚ} (j : ℕ) :
    lineAt id inst1 inst2 (inst1.t + j) =
      inst1.value + (inst2.value - inst1.value) / ((inst2.t - inst1.t : ℤ) : ℚ) * j := by
  simp only [lineAt, id, add_sub_cancel_left, Int.cast_natCast]
  ring

/-- The area `tnumberseq_integral` adds for a segment is the sum of the unit areas of
any values that agree with the array on the segment. -/
lemma segmentArea_eq_areaFrom {inst1 inst2 : TInstant ℚ} {rest : List (TInstant ℚ)}
    (hs : (inst1 :: inst2 :: rest).Pairwise fun a b => a.t < b.t)
    (hf : ∀ s, inst1.t ≤ s → (s < inst2.t ∨ linear = true ∧ s = inst2.t) →
      instantsValueAt (tfloat ε) linear (inst1 :: inst2 :: rest) s = some (f s)) :
    segmentArea id linear inst1 inst2 = areaFrom linear f inst1.t (inst2.t - inst1.t).toNat := by
  have h12 : inst1.t < inst2.t := List.rel_of_pairwise_cons hs (List.mem_cons_self _ _)
  have hd : ((inst2.t - inst1.t).toNat : ℚ) = ((inst2.t - inst1.t : ℤ) : ℚ) := by
    exact_mod_cast Int.toNat_of_nonneg (by omega)
  have hsegment : ∀ s, inst1.t ≤ s → s ≤ inst2.t →
      instantsValueAt (tfloat ε) linear (inst1 :: inst2 :: rest) s =
        some (tsequenceValueAtTimestamp1 (tfloat ε) inst1 inst2 linear s) :=
    fun s h1 h2 => instantsValueAt_of_getElem? hs (m := 0) (by simp) (by simp) h1 h2
  cases linear
  · have hconst : ∀ j : ℕ, j < (inst2.t - inst1.t).toNat → f (inst1.t + j) = inst1.value :=
      fun j hj => by
        have h2 : inst1.t + j < inst2.t := by omega
        have := (hf _ (by omega) (.inl h2)).symm
        rwa [hsegment _ (by omega) h2.le, tsequenceValueAtTimestamp1_step h2,
          Option.some.injEq] at this
    rw [areaFrom_const hconst, segmentArea, if_neg Bool.false_ne_true, hd, id, mul_comm]
  · have hline : ∀ j : ℕ, j ≤ (inst2.t - inst1.t).toNat → f (inst1.t + j) =
        inst1.value + (inst2.value - inst1.value) / ((inst2.t - inst1.t : ℤ) : ℚ) * j :=
      fun j hj => by
        have h2 : inst1.t + j ≤ inst2.t := by omega
        have := (hf _ (by omega) (h2.lt_or_eq.imp_right fun h => ⟨rfl, h⟩)).symm
        rwa [hsegment _ (by omega) h2, tsequenceValueAtTimestamp1_tfloat ε (by omega) h2,
          Option.some.injEq, lineAt_eq_affine] at this
    have hne : ((inst2.t - inst1.t : ℤ) : ℚ) ≠ 0 := by exact_mod_cast (sub_pos.mpr h12).ne'
    rw [areaFrom_line hline, hd, segmentArea, if_pos rfl]
    simp only [id]
    rw [add_comm (max _ _), min_add_max, div_mul_cancel₀ _ hne]
    ring

/-- On an increasing float array, the loop of `tnumberseq_integral` adds to `result`
the unit areas from the first timestamp until the last one of any values that agree
with the array there, at the last timestamp too with linear interpolation. -/
lemma tnumberseqIntegralLoop_eq_areaFrom :
    ∀ (result : ℚ) (inst : TInstant ℚ) (rest : List (TInstant ℚ)),
      (inst :: rest).Pairwise (fun a b => a.t < b.t) →
      (∀ s, inst.t ≤ s → (s < lastT (inst :: rest) ∨ linear = true ∧ s = lastT (inst :: rest)) →
        instantsValueAt (tfloat ε) linear (inst :: rest) s = some (f s)) →
      tnumberseqIntegralLoop id linear result inst rest =
        result + areaFrom linear f inst.t (lastT (inst :: rest) - inst.t).toNat
  | result, inst, [], _, _ => by simp [tnumberseqIntegralLoop, areaFrom, lastT_singleton]
  | result, inst1, inst2 :: rest, hs, hf => by
    have h12 : inst1.t < inst2.t := List.rel_of_pairwise_cons hs (List.mem_cons_self _ _)
    have h2 : inst2.t ≤ lastT (inst2 :: rest) := le_lastT_of_getElem? hs.of_cons (i := 0) (by simp)
    rw [lastT_cons_cons] at hf ⊢
    have hseg := segmentArea_eq_areaFrom hs fun s h1 h2' => hf s h1 (by
      rcases h2' with h | ⟨hl, rfl⟩
      · exact .inl (by omega)
      · exact h2.lt_or_eq.imp id fun h => ⟨hl, h⟩)
    have hsplit : (lastT (inst2 :: rest) - inst1.t).toNat =
        (inst2.t - inst1.t).toNat + (lastT (inst2 :: rest) - inst2.t).toNat := by omega
    have hmid : inst1.t + ((inst2.t - inst1.t).toNat : ℕ) = inst2.t := by omega
    rw [tnumberseqIntegralLoop, tnumberseqIntegralLoop_eq_areaFrom _ inst2 rest hs.of_cons
      fun s h1 h2' => (instantsValueAt_cons_of_le h1).symm.trans (hf s (by omega) h2'),
      hsplit, areaFrom_add, hmid, hseg, add_assoc]

end Array

/-- The values of a float sequence on the timestamps of its span, `0` elsewhere. -/
def arrayValues (ε : ℚ) (seq : TSequence ℚ B) (s : ℤ) : ℚ :=
  (instantsValueAt (tfloat ε) seq.linear seq.instants s).getD 0

/-- On a well-formed float sequence, `tnumberseq_integral` is the sum of the unit areas
under the values of its instant array, read by any `f` that agrees with the array. -/
lemma tnumberseqIntegral_eq_areaFrom {ε : ℚ} {seq : TSequence ℚ B} {f : ℤ → ℚ}
    (hwf : seq.WellFormed)
    (hf : ∀ s, firstT seq.instants ≤ s →
      (s < lastT seq.instants ∨ seq.linear = true ∧ s = lastT seq.instants) →
      instantsValueAt (tfloat ε) seq.linear seq.instants s = some (f s)) :
    tnumberseqIntegral id seq =
      areaFrom seq.linear f (firstT seq.instants) (lastT seq.instants - firstT seq.instants).toNat := by
  obtain ⟨inst, rest, hi⟩ := List.exists_cons_of_ne_nil hwf.nonempty
  have hs := chain'_t_iff_pairwise.mp hwf.increasing
  rw [hi] at hs hf ⊢
  simp only [tnumberseqIntegral, hi]
  rw [tnumberseqIntegralLoop_eq_areaFrom 0 inst rest hs hf, zero_add, firstT_cons]

lemma instantsValueAt_eq_arrayValues {ε : ℚ} {seq : TSequence ℚ B} (hwf : seq.WellFormed)
    {s : ℤ} (h1 : firstT seq.instants ≤ s) (h2 : s ≤ lastT seq.instants) :
    instantsValueAt (tfloat ε) seq.linear seq.instants s = some (arrayValues ε seq s) := by
  obtain ⟨v, hv⟩ := Option.isSome_iff_exists.mp (instantsValueAt_isSome hwf.nonempty h1 h2)
  rw [arrayValues, hv, Option.getD_some]

/-- What `tsequence_at_period` returns for a period whose intersection with the span
of a float sequence is `[a, b]`, `a < b`, has as integral the unit areas under the
sequence from `a` until `b`. -/
lemma tsequenceAtPeriod_integral (ε : ℚ) (bx : BBoxOps ℚ B) {seq : TSequence ℚ B} {p inter : Period}
    (hwf : seq.WellFormed) (hp : p.Valid) (ho : overlapsPeriodPeriod seq.period p = true)
    (hinter : intersectionPeriodPeriod seq.period p = some inter) (hab : inter.lower < inter.upper) :
    ∃ r, tsequenceAtPeriod (tfloat ε) bx seq p = .ok (some r) ∧
      tnumberseqIntegral id r =
        areaFrom seq.linear (arrayValues ε seq) inter.lower (inter.upper - inter.lower).toNat := by
  have hv := intersectionPeriodPeriod_valid hwf.periodValid hp hinter
  obtain ⟨hlower, hupper⟩ := intersectionPeriodPeriod_bounds hinter
  have hper := hwf.period
  have hspan : firstT seq.instants ≤ inter.lower ∧ inter.upper ≤ lastT seq.instants := by
    rw [hper] at hlower hupper
    simp only [periodOf] at hlower hupper
    omega
  obtain ⟨r, hr, hwfr, hlin, hperr, hcut, hend⟩ :=
    tsequenceAtPeriod_cut (tfloat ε) bx (fun _ => tfloat_lawful ε) hwf
      (two_le_length_of_firstT_lt_lastT (by omega)) ho hinter hv hab.ne
  have hrper := hwfr.period
  rw [hperr] at hrper
  have hfirst : firstT r.instants = inter.lower := by rw [hrper]; rfl
  have hlast : lastT r.instants = inter.upper := by rw [hrper]; rfl
  refine ⟨r, hr, ?_⟩
  rw [tnumberseqIntegral_eq_areaFrom hwfr (f := arrayValues ε seq), hfirst, hlast, hlin]
  rw [hfirst, hlast, hlin]
  rintro s h1 (h2 | ⟨hl, rfl⟩)
  · rw [hcut s h1 h2, instantsValueAt_eq_arrayValues hwf (by omega) (by omega)]
  · rw [hend (.inl hl), instantsValueAt_eq_arrayValues hwf (by omega) hspan.2]

/-- For a float sequence and a timestamp strictly between its first and last instants,
the integrals of the parts `tsequence_at_period` returns before and after the timestamp
add up to the integral of the sequence. -/
theorem tnumberseq_integral_additive (ε : ℚ) (bx : BBoxOps ℚ B) {seq : TSequence ℚ B}
    (hwf : seq.WellFormed) {t : ℤ} (h1 : firstT seq.instants < t) (h2 : t < lastT seq.instants) :
    ∃ r1 r2, tsequenceAtPeriod (tfloat ε) bx seq ⟨seq.period.lower, t, true, true⟩ = .ok (some r1) ∧
      tsequenceAtPeriod (tfloat ε) bx seq ⟨t, seq.period.upper, true, true⟩ = .ok (some r2) ∧
      tnumberseqIntegral id r1 + tnumberseqIntegral id r2 = tnumberseqIntegral id seq := by
  have hper := hwf.period
  have hlower : seq.period.lower = firstT seq.instants := by rw [hper]; rfl
  have hupper : seq.period.upper = lastT seq.instants := by rw [hper]; rfl
  have h12 : firstT seq.instants < lastT seq.instants := h1.trans h2
  have ho1 : overlapsPeriodPeriod seq.period ⟨seq.period.lower, t, true, true⟩ = true := by
    simp [overlapsPeriodPeriod, hupper, hlower, h1, h2, h12]
  have ho2 : overlapsPeriodPeriod seq.period ⟨t, seq.period.upper, true, true⟩ = true := by
    simp [overlapsPeriodPeriod, hupper, hlower, h1, h2, h12]
  obtain ⟨inter1, hi1⟩ := intersectionPeriodPeriod_isSome ho1
  obtain ⟨inter2, hi2⟩ := intersectionPeriodPeriod_isSome ho2
  obtain ⟨hl1, hu1⟩ := intersectionPeriodPeriod_bounds hi1
  obtain ⟨hl2, hu2⟩ := intersectionPeriodPeriod_bounds hi2
  simp only [max_self, min_self, hupper, hlower, min_eq_right h2.le, max_eq_right h1.le]
    at hl1 hu1 hl2 hu2
  have hp1 : Period.Valid ⟨seq.period.lower, t, true, true⟩ := .inl (show seq.period.lower < t by omega)
  have hp2 : Period.Valid ⟨t, seq.period.upper, true, true⟩ := .inl (show t < seq.period.upper by omega)
  obtain ⟨r1, hr1, hint1⟩ := tsequenceAtPeriod_integral ε bx hwf hp1 ho1 hi1 (by omega)
  obtain ⟨r2, hr2, hint2⟩ := tsequenceAtPeriod_integral ε bx hwf hp2 ho2 hi2 (by omega)
  have hmid : firstT seq.instants + ((t - firstT seq.instants).toNat : ℤ) = t := by omega
  have hsplit : (lastT seq.instants - firstT seq.instants).toNat =
      (t - firstT seq.instants).toNat + (lastT seq.instants - t).toNat := by omega
  refine ⟨r1, r2, hr1, hr2, ?_⟩
  rw [hint1, hint2, hl1, hu1, hl2, hu2, tnumberseqIntegral_eq_areaFrom hwf fun s hs1 hs2 =>
      instantsValueAt_eq_arrayValues hwf hs1 (hs2.elim le_of_lt fun h => h.2.le),
    hsplit, areaFrom_add, hmid]

/-- The linear float sequence `[0@0, 2@2]` cut at `1`. -/
theorem tnumberseq_integral_additive_line :
    (⟨[⟨0, 0⟩, ⟨2, 2⟩], ⟨0, 2, true, true⟩, true, ⟨0, 2, 0, 2⟩⟩ : TSequence ℚ TBox).WellFormed ∧
    firstT [(⟨0, 0⟩ : TInstant ℚ), ⟨2, 2⟩] < 1 ∧ 1 < lastT [(⟨0, 0⟩ : TInstant ℚ), ⟨2, 2⟩] ∧
    ∃ r1 r2, tsequenceAtPeriod (tfloat 0) (tnumberBBox id)
        (⟨[⟨0, 0⟩, ⟨2, 2⟩], ⟨0, 2, true, true⟩, true, ⟨0, 2, 0, 2⟩⟩ : TSequence ℚ TBox)
        ⟨0, 1, true, true⟩ = .ok (some r1) ∧
      tsequenceAtPeriod (tfloat 0) (tnumberBBox id)
        (⟨[⟨0, 0⟩, ⟨2, 2⟩], ⟨0, 2, true, true⟩, true, ⟨0, 2, 0, 2⟩⟩ : TSequence ℚ TBox)
        ⟨1, 2, true, true⟩ = .ok (some r2) ∧
      tnumberseqIntegral id r1 + tnumberseqIntegral id r2 =
        tnumberseqIntegral id
          (⟨[⟨0, 0⟩, ⟨2, 2⟩], ⟨0, 2, true, true⟩, true, ⟨0, 2, 0, 2⟩⟩ : TSequence ℚ TBox) := by
  have hwf : (⟨[⟨0, 0⟩, ⟨2, 2⟩], ⟨0, 2, true, true⟩, true, ⟨0, 2, 0, 2⟩⟩ :
      TSequence ℚ TBox).WellFormed :=
    ⟨by simp, by simp, by simp [periodOf, lastT], by simp, by simp⟩
  have h1 : firstT [(⟨0, 0⟩ : TInstant ℚ), ⟨2, 2⟩] < 1 := by decide
  have h2 : 1 < lastT [(⟨0, 0⟩ : TInstant ℚ), ⟨2, 2⟩] := by decide
  exact ⟨hwf, h1, h2, tnumberseq_integral_additive 0 (tnumberBBox id) hwf h1 h2⟩

/-! ## The time-weighted average -/

section Average

variable {V : Type} {toDouble : V → ℚ} {lo hi : ℚ}

lemma segmentArea_mem (linear : Bool) {inst1 inst2 : TInstant V} (h12 : inst1.t ≤ inst2.t)
    (h1 : lo ≤ toDouble inst1.value ∧ toDouble inst1.value ≤ hi)
    (h2 : lo ≤ toDouble inst2.value ∧ toDouble inst2.value ≤ hi) :
    lo * ((inst2.t - inst1.t : ℤ) : ℚ) ≤ segmentArea toDouble linear inst1 inst2 ∧
      segmentArea toDouble linear inst1 inst2 ≤ hi * ((inst2.t - inst1.t : ℤ) : ℚ) := by
  have hd : (0 : ℚ) ≤ ((inst2.t - inst1.t : ℤ) : ℚ) := by exact_mod_cast sub_nonneg.mpr h12
  cases linear
  · exact ⟨mul_le_mul_of_nonneg_right h1.1 hd, mul_le_mul_of_nonneg_right h1.2 hd⟩
  · rw [segmentArea, if_pos rfl, add_comm (max _ _), min_add_max]
    constructor <;> nlinarith

/-- The loop of `tnumberseq_integral` over an increasing array whose values lie between
`lo` and `hi` adds to `result` an area between the rectangles of height `lo` and `hi`
over the span of the array. -/
lemma tnumberseqIntegralLoop_mem (linear : Bool) :
    ∀ (result : ℚ) (inst : TInstant V) (rest : List (TInstant V)),
      (inst :: rest).Pairwise (fun a b => a.t < b.t) →
      (∀ i ∈ inst :: rest, lo ≤ toDouble i.value ∧ toDouble i.value ≤ hi) →
      result + lo * ((lastT (inst :: rest) - inst.t : ℤ) : ℚ) ≤
          tnumberseqIntegralLoop toDouble linear result inst rest ∧
        tnumberseqIntegralLoop toDouble linear result inst rest ≤
          result + hi * ((lastT (inst :: rest) - inst.t : ℤ) : ℚ)
  | result, inst, [], _, _ => by simp [tnumberseqIntegralLoop]
  | result, inst1, inst2 :: rest, hs, hb => by
    have h12 : inst1.t < inst2.t := List.rel_of_pairwise_cons hs (List.mem_cons_self _ _)
    obtain ⟨hlo, hhi⟩ := segmentArea_mem linear h12.le (hb inst1 (List.mem_cons_self _ _))
      (hb inst2 (List.mem_cons_of_mem _ (List.mem_cons_self _ _)))
    obtain ⟨ih1, ih2⟩ := tnumberseqIntegralLoop_mem linear
      (result + segmentArea toDouble linear inst1 inst2) inst2 rest hs.of_cons
      fun i hi => hb i (List.mem_cons_of_mem _ hi)
    have hsplit : ((lastT (inst2 :: rest) - inst1.t : ℤ) : ℚ) =
        ((inst2.t - inst1.t : ℤ) : ℚ) + ((lastT (inst2 :: rest) - inst2.t : ℤ) : ℚ) := by
      push_cast
      ring
    rw [tnumberseqIntegralLoop, lastT_cons_cons, hsplit]
    constructor <;> linarith

/-- On a well-formed sequence whose instant values lie between `lo` and `hi`,
`tnumberseq_twavg` lies between them too, in both of its branches: an instantaneous
sequence, and the integral divided by the duration. -/
theorem tnumberseqTwavg_mem [DecidableEq V] {seq : TSequence V B} (hwf : seq.WellFormed)
    (hb : ∀ inst ∈ seq.instants, lo ≤ toDouble inst.value ∧ toDouble inst.value ≤ hi) :
    lo ≤ tnumberseqTwavg toDouble seq ∧ tnumberseqTwavg toDouble seq ≤ hi := by
  obtain ⟨inst, rest, hinst⟩ := List.exists_cons_of_ne_nil hwf.nonempty
  have hs := chain'_t_iff_pairwise.mp hwf.increasing
  have hper := hwf.period
  rw [hinst] at hs hb hper
  have hlow : seq.period.lower = inst.t := by rw [hper]; rfl
  have hup : seq.period.upper = lastT (inst :: rest) := by rw [hper]; rfl
  simp only [tnumberseqTwavg, hlow, hup]
  split_ifs with hd
  · simpa [hinst] using hb inst (List.mem_cons_self _ _)
  · have hlast : inst.t ≤ lastT (inst :: rest) :=
      le_lastT_of_getElem? hs (i := 0) (by simp)
    have hpos : (0 : ℚ) < ((lastT (inst :: rest) - inst.t : ℤ) : ℚ) :=
      lt_of_le_of_ne (by exact_mod_cast sub_nonneg.mpr hlast) (Ne.symm hd)
    obtain ⟨h1, h2⟩ := tnumberseqIntegralLoop_mem seq.linear 0 inst rest hs hb
    simp only [tnumberseqIntegral, hinst, zero_add] at h1 h2 ⊢
    exact ⟨(le_div_iff₀ hpos).mpr h1, (div_le_iff₀ hpos).mpr h2⟩

/-- The linear float sequence `[1@0, 3@2]`, whose values lie between 1 and 3. -/
theorem tnumberseqTwavg_mem_line :
    (⟨[⟨1, 0⟩, ⟨3, 2⟩], ⟨0, 2, true, true⟩, true, ⟨1, 3, 0, 2⟩⟩ : TSequence ℚ TBox).WellFormed ∧
    (∀ inst ∈ [(⟨1, 0⟩ : TInstant ℚ), ⟨3, 2⟩], (1 : ℚ) ≤ id inst.value ∧ id inst.value ≤ 3) ∧
    1 ≤ tnumberseqTwavg id (⟨[⟨1, 0⟩, ⟨3, 2⟩], ⟨0, 2, true, true⟩, true, ⟨1, 3, 0, 2⟩⟩ :
      TSequence ℚ TBox) ∧
    tnumberseqTwavg id (⟨[⟨1, 0⟩, ⟨3, 2⟩], ⟨0, 2, true, true⟩, true, ⟨1, 3, 0, 2⟩⟩ :
      TSequence ℚ TBox) ≤ 3 := by
  have hwf : (⟨[⟨1, 0⟩, ⟨3, 2⟩], ⟨0, 2, true, true⟩, true, ⟨1, 3, 0, 2⟩⟩ :
      TSequence ℚ TBox).WellFormed := ⟨by simp, by simp, rfl, by simp, by simp⟩
  have hb : ∀ inst ∈ [(⟨1, 0⟩ : TInstant ℚ), ⟨3, 2⟩], (1 : ℚ) ≤ id inst.value ∧ id inst.value ≤ 3 := by
    norm_num
  exact ⟨hwf, hb, tnumberseqTwavg_mem hwf hb⟩

end Average

end TemporalSequence
