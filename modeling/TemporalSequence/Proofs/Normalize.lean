import TemporalSequence.TNumber
import Mathlib.Tactic.LinearCombination
import Mathlib.Tactic.Linarith

/-!
# Normalization of instant arrays

`tinstantarr_normalize` makes one left-to-right pass and tests each candidate
against the last kept instant and the next input instant. With step interpolation
the test reads only the last kept instant and the candidate. With linear
interpolation and an exact collinearity test, the instants dropped between two
kept ones all lie on the line through them. In both cases a second pass keeps
every instant, and `tsequence_read` gives back the sequence `tsequence_write`
sent. The tolerance `EPSILON` of the collinearity test breaks this: the instants
dropped after a kept one may drift from the line by `EPSILON` each, and a second
pass then drops the kept one.
-/

namespace TemporalSequence

variable {V B : Type} [DecidableEq V]

section Loop

variable (bt : BaseType V) (linear : Bool)

@[simp] lemma tinstantarrNormalizeLoop_nil (inst1 inst2 : TInstant V) :
    tinstantarrNormalizeLoop bt linear inst1 inst2 [] = [inst2] := rfl

lemma tinstantarrNormalizeLoop_cons (inst1 inst2 inst3 : TInstant V) (rest : List (TInstant V)) :
    tinstantarrNormalizeLoop bt linear inst1 inst2 (inst3 :: rest) =
      if normalizeRedundant bt linear inst1 inst2 inst3 then
        tinstantarrNormalizeLoop bt linear inst1 inst3 rest
      else inst2 :: tinstantarrNormalizeLoop bt linear inst2 inst3 rest := rfl

lemma tinstantarrNormalizeLoop_ne_nil (inst1 inst2 : TInstant V) (rest : List (TInstant V)) :
    tinstantarrNormalizeLoop bt linear inst1 inst2 rest ≠ [] := by
  induction rest generalizing inst1 inst2 with
  | nil => simp
  | cons inst3 rest ih =>
    rw [tinstantarrNormalizeLoop_cons]
    split_ifs
    · exact ih _ _
    · simp

lemma tinstantarrNormalizeLoop_sublist (inst1 inst2 : TInstant V) (rest : List (TInstant V)) :
    (tinstantarrNormalizeLoop bt linear inst1 inst2 rest).Sublist (inst2 :: rest) := by
  induction rest generalizing inst1 inst2 with
  | nil => simp
  | cons inst3 rest ih =>
    rw [tinstantarrNormalizeLoop_cons]
    split_ifs
    · exact (ih _ _).cons _
    · exact (ih _ _).cons_cons _

lemma tinstantarrNormalize_length {instants : List (TInstant V)} (h : 1 < instants.length) :
    1 < (tinstantarrNormalize bt instants linear).length := by
  match instants, h with
  | inst1 :: inst2 :: rest, _ =>
    obtain ⟨inst, out, hout⟩ :=
      List.exists_cons_of_ne_nil (tinstantarrNormalizeLoop_ne_nil bt linear inst1 inst2 rest)
    simp [tinstantarrNormalize, hout]

lemma tinstantarrNormalize_idempotent_of_rerun {instants : List (TInstant V)}
    (hrerun : ∀ inst1 inst2 rest inst out, instants = inst1 :: inst2 :: rest →
      tinstantarrNormalizeLoop bt linear inst1 inst2 rest = inst :: out →
      tinstantarrNormalizeLoop bt linear inst1 inst out = inst :: out) :
    tinstantarrNormalize bt (tinstantarrNormalize bt instants linear) linear =
      tinstantarrNormalize bt instants linear := by
  match instants with
  | [] => rfl
  | [_] => rfl
  | inst1 :: inst2 :: rest =>
    obtain ⟨inst, out, hout⟩ :=
      List.exists_cons_of_ne_nil (tinstantarrNormalizeLoop_ne_nil bt linear inst1 inst2 rest)
    simp only [tinstantarrNormalize, hout, hrerun inst1 inst2 rest inst out rfl hout]

end Loop

/-! ## Step interpolation -/

section Step

variable (bt : BaseType V)

@[simp] lemma normalizeRedundant_step (inst1 inst2 inst3 : TInstant V) :
    normalizeRedundant bt false inst1 inst2 inst3 = (inst1.value == inst2.value) := by
  simp [normalizeRedundant]

lemma tinstantarrNormalizeLoop_step_rerun {inst1 inst2 inst : TInstant V}
    {rest out : List (TInstant V)}
    (h : tinstantarrNormalizeLoop bt false inst1 inst2 rest = inst :: out) :
    tinstantarrNormalizeLoop bt false inst1 inst out = inst :: out := by
  induction rest generalizing inst1 inst2 inst out with
  | nil =>
    obtain ⟨rfl, rfl⟩ := List.cons.inj h
    rfl
  | cons inst3 rest ih =>
    rw [tinstantarrNormalizeLoop_cons] at h
    split_ifs at h with hred
    · exact ih h
    · obtain ⟨rfl, rfl⟩ := List.cons.inj h
      obtain ⟨next, out', hnext⟩ :=
        List.exists_cons_of_ne_nil (tinstantarrNormalizeLoop_ne_nil bt false inst2 inst3 rest)
      rw [hnext, tinstantarrNormalizeLoop_cons, if_neg (by simpa using hred), ih hnext]

lemma lastTwo?_tinstantarrNormalizeLoop_step (inst1 inst2 : TInstant V)
    (rest : List (TInstant V)) :
    (lastTwo? (inst1 :: tinstantarrNormalizeLoop bt false inst1 inst2 rest)).map
        (fun p => (p.1.value, p.2.value)) =
      (lastTwo? (inst1 :: inst2 :: rest)).map (fun p => (p.1.value, p.2.value)) := by
  induction rest generalizing inst1 inst2 with
  | nil => rfl
  | cons inst3 rest ih =>
    rw [tinstantarrNormalizeLoop_cons]
    split_ifs with hred
    · rw [ih]
      cases rest with
      | nil => simpa [lastTwo?] using hred
      | cons _ _ => rfl
    · obtain ⟨next, out, hnext⟩ :=
        List.exists_cons_of_ne_nil (tinstantarrNormalizeLoop_ne_nil bt false inst2 inst3 rest)
      have := ih inst2 inst3
      rw [hnext] at this ⊢
      exact this

end Step

/-! ## Linear interpolation with an exact collinearity test -/

section Exact

/-- `inst2` lies on the line through `inst1` and `inst3` in the plane of timestamps
and values. -/
def OnLine (inst1 inst2 inst3 : TInstant ℚ) : Prop :=
  (inst2.value - inst1.value) * (inst3.t - inst1.t) =
    (inst3.value - inst1.value) * (inst2.t - inst1.t)

lemma onLine_self (inst1 inst2 : TInstant ℚ) : OnLine inst1 inst2 inst2 := rfl

lemma normalizeRedundant_exact_iff {inst1 inst2 inst3 : TInstant ℚ} (h : inst1.t < inst3.t) :
    normalizeRedundant (tfloat 0) true inst1 inst2 inst3 = true ↔ OnLine inst1 inst2 inst3 := by
  have hd : ((inst3.t : ℚ) - inst1.t) ≠ 0 := sub_ne_zero.mpr (by exact_mod_cast h.ne')
  simp only [normalizeRedundant, datumCollinear, tfloat, floatCollinear, OnLine]
  simp only [Bool.not_true, Bool.false_and, Bool.true_and, Bool.false_or, Bool.or_eq_true,
    Bool.and_eq_true, beq_iff_eq, decide_eq_true_eq, abs_nonpos_iff, Int.cast_sub]
  rw [or_iff_right_of_imp (fun h => by simp [← h.1, ← h.2])]
  field_simp
  constructor <;> intro h <;> linarith

lemma OnLine.trans {inst1 inst2 inst3 inst4 : TInstant ℚ} (h1 : OnLine inst1 inst2 inst3)
    (h2 : OnLine inst1 inst3 inst4) (h : inst1.t < inst3.t) : OnLine inst1 inst2 inst4 := by
  have hd : ((inst3.t : ℚ) - inst1.t) ≠ 0 := sub_ne_zero.mpr (by exact_mod_cast h.ne')
  unfold OnLine at *
  apply mul_right_cancel₀ hd
  linear_combination ((inst4.t : ℚ) - inst1.t) * h1 + ((inst2.t : ℚ) - inst1.t) * h2

lemma OnLine.of_onLine {inst0 inst1 inst3 inst4 : TInstant ℚ} (h1 : OnLine inst0 inst1 inst4)
    (h2 : OnLine inst1 inst3 inst4) (h : inst1.t < inst4.t) : OnLine inst0 inst1 inst3 := by
  have hd : ((inst4.t : ℚ) - inst1.t) ≠ 0 := sub_ne_zero.mpr (by exact_mod_cast h.ne')
  unfold OnLine at *
  apply mul_right_cancel₀ hd
  linear_combination ((inst3.t : ℚ) - inst1.t) * h1 + ((inst0.t : ℚ) - inst1.t) * h2

lemma tinstantarrNormalizeLoop_exact_head {inst1 inst2 inst : TInstant ℚ}
    {rest out : List (TInstant ℚ)} (hp : (inst1 :: inst2 :: rest).Pairwise (·.t < ·.t))
    (h : tinstantarrNormalizeLoop (tfloat 0) true inst1 inst2 rest = inst :: out) :
    OnLine inst1 inst2 inst := by
  induction rest generalizing inst2 inst out with
  | nil =>
    obtain ⟨rfl, rfl⟩ := List.cons.inj h
    exact onLine_self _ _
  | cons inst3 rest ih =>
    have h13 : inst1.t < inst3.t := List.rel_of_pairwise_cons hp (by simp)
    rw [tinstantarrNormalizeLoop_cons] at h
    split_ifs at h with hred
    · have hp' := hp.sublist ((List.sublist_cons_self _ _).cons_cons _)
      exact ((normalizeRedundant_exact_iff h13).mp hred).trans (ih hp' h) h13
    · obtain ⟨rfl, rfl⟩ := List.cons.inj h
      exact onLine_self _ _

lemma tinstantarrNormalizeLoop_exact_rerun {inst1 inst2 inst : TInstant ℚ}
    {rest out : List (TInstant ℚ)} (hp : (inst1 :: inst2 :: rest).Pairwise (·.t < ·.t))
    (h : tinstantarrNormalizeLoop (tfloat 0) true inst1 inst2 rest = inst :: out) :
    tinstantarrNormalizeLoop (tfloat 0) true inst1 inst out = inst :: out := by
  induction rest generalizing inst1 inst2 inst out with
  | nil =>
    obtain ⟨rfl, rfl⟩ := List.cons.inj h
    rfl
  | cons inst3 rest ih =>
    have h13 : inst1.t < inst3.t := List.rel_of_pairwise_cons hp (by simp)
    rw [tinstantarrNormalizeLoop_cons] at h
    split_ifs at h with hred
    · exact ih (hp.sublist ((List.sublist_cons_self _ _).cons_cons _)) h
    · obtain ⟨rfl, rfl⟩ := List.cons.inj h
      obtain ⟨next, out', hnext⟩ :=
        List.exists_cons_of_ne_nil (tinstantarrNormalizeLoop_ne_nil (tfloat 0) true inst2 inst3 rest)
      have hmem : next ∈ inst3 :: rest :=
        (tinstantarrNormalizeLoop_sublist (tfloat 0) true inst2 inst3 rest).subset (by simp [hnext])
      have h1n : inst1.t < next.t := List.rel_of_pairwise_cons hp (by simp [hmem])
      have h2n : inst2.t < next.t := List.rel_of_pairwise_cons hp.of_cons hmem
      have hline := tinstantarrNormalizeLoop_exact_head hp.of_cons hnext
      have hkeep : ¬normalizeRedundant (tfloat 0) true inst1 inst2 next = true := fun hn =>
        hred ((normalizeRedundant_exact_iff h13).mpr
          (((normalizeRedundant_exact_iff h1n).mp hn).of_onLine hline h2n))
      rw [hnext, tinstantarrNormalizeLoop_cons, if_neg hkeep, ih hp.of_cons hnext]

end Exact

/-! ## The round trip through `tsequence_write` and `tsequence_read` -/

section RoundTrip

/-- The normalized array of an array `tsequence_make` accepts passes its checks too. -/
lemma tsequenceMakeCheck_tinstantarrNormalize (bt : BaseType V) {instants : List (TInstant V)}
    {lowerInc upperInc linear : Bool}
    (h : tsequenceMakeCheck instants lowerInc upperInc linear = .ok ())
    (hlen : 1 < instants.length) :
    tsequenceMakeCheck (tinstantarrNormalize bt instants linear) lowerInc upperInc linear =
      .ok () := by
  match instants, hlen with
  | inst1 :: inst2 :: rest, _ =>
    rw [tsequenceMakeCheck_eq_ok] at h ⊢
    obtain ⟨-, hchain, -, hend⟩ := h
    have hsub := (tinstantarrNormalizeLoop_sublist bt linear inst1 inst2 rest).cons_cons inst1
    have hlen' : 1 < (tinstantarrNormalize bt (inst1 :: inst2 :: rest) linear).length :=
      tinstantarrNormalize_length bt linear (by simp)
    refine ⟨by simp [tinstantarrNormalize], chain'_t_iff_pairwise.mpr
      ((chain'_t_iff_pairwise.mp hchain).sublist hsub), by omega, ?_⟩
    cases linear with
    | true => simp
    | false =>
      have hvalues := lastTwo?_tinstantarrNormalizeLoop_step bt inst1 inst2 rest
      have hany : ∀ l : List (TInstant V), (lastTwo? l).any (fun p => p.1.value ≠ p.2.value) =
          ((lastTwo? l).map fun p => (p.1.value, p.2.value)).any (fun q => q.1 ≠ q.2) :=
        fun l => by cases lastTwo? l <;> rfl
      simpa only [tinstantarrNormalize, hany, hvalues] using hend

/-- `tsequence_read` gives back a sequence `tsequence_make` built with normalization
whenever a second normalization pass keeps its instants. -/
lemma tsequenceRead_tsequenceWrite_of_idempotent {bt : BaseType V} {bx : BBoxOps V B}
    {instants : List (TInstant V)} {lowerInc upperInc linear : Bool} {seq : TSequence V B}
    (h : tsequenceMake bt bx instants lowerInc upperInc linear true = .ok seq)
    (hidem : tinstantarrNormalize bt (tinstantarrNormalize bt instants linear) linear =
      tinstantarrNormalize bt instants linear) :
    tsequenceRead bt bx (tsequenceWrite seq) = .ok seq := by
  obtain ⟨hcheck, rfl⟩ := tsequenceMake_eq_ok.mp h
  simp only [tsequenceRead, tsequenceWrite, List.take_length]
  by_cases hlen : 1 < instants.length
  · simp [tsequenceMake_eq_ok, hlen, hidem, tinstantarrNormalize_length bt linear hlen,
      tsequenceMakeCheck_tinstantarrNormalize bt hcheck hlen]
  · simp [tsequenceMake_eq_ok, hlen, hcheck]

end RoundTrip

/-- With the tolerance `ε > 0`, normalizing `0@0, ε@1, -ε/2@2, 0@3` keeps `ε@1`
and a second pass drops it, so `tsequence_read` does not give back the sequence
`tsequence_make` built from these instants. -/
theorem tinstantarrNormalize_second_pass_drops {B : Type} (bx : BBoxOps ℚ B) (ε : ℚ)
    (hε : 0 < ε) :
    tinstantarrNormalize (tfloat ε) [⟨0, 0⟩, ⟨ε, 1⟩, ⟨-ε / 2, 2⟩, ⟨0, 3⟩] true =
      [⟨0, 0⟩, ⟨ε, 1⟩, ⟨0, 3⟩] ∧
    tinstantarrNormalize (tfloat ε) [⟨0, 0⟩, ⟨ε, 1⟩, ⟨0, 3⟩] true = [⟨0, 0⟩, ⟨0, 3⟩] ∧
    ∃ seq, tsequenceMake (tfloat ε) bx [⟨0, 0⟩, ⟨ε, 1⟩, ⟨-ε / 2, 2⟩, ⟨0, 3⟩] true true true true =
        .ok seq ∧ seq.instants = [⟨0, 0⟩, ⟨ε, 1⟩, ⟨0, 3⟩] ∧
      (tsequenceRead (tfloat ε) bx (tsequenceWrite seq)).map TSequence.instants =
        .ok [⟨0, 0⟩, ⟨0, 3⟩] := by
  have h1 : ¬|ε - -ε / 2 * 2⁻¹| ≤ ε := by
    rw [show ε - -ε / 2 * 2⁻¹ = 5 / 4 * ε by ring, abs_of_pos (by linarith)]
    linarith
  have h2 : -ε / 2 - (ε + -(ε * 2⁻¹)) = -ε := by ring
  have h3 : |-ε / 2| ≤ ε := abs_le.mpr ⟨by linarith, by linarith⟩
  have h4 : |ε| ≤ ε := (abs_of_pos hε).le
  have hfirst : tinstantarrNormalize (tfloat ε) [⟨0, 0⟩, ⟨ε, 1⟩, ⟨-ε / 2, 2⟩, ⟨0, 3⟩] true =
      [⟨0, 0⟩, ⟨ε, 1⟩, ⟨0, 3⟩] := by
    simp [tinstantarrNormalize, tinstantarrNormalizeLoop, normalizeRedundant, datumCollinear,
      tfloat, floatCollinear, h1, h2, h3, hε.ne]
    exact fun _ => h4
  have hsecond : tinstantarrNormalize (tfloat ε) [⟨0, 0⟩, ⟨ε, 1⟩, ⟨0, 3⟩] true =
      [⟨0, 0⟩, ⟨0, 3⟩] := by
    simp [tinstantarrNormalize, tinstantarrNormalizeLoop, normalizeRedundant, datumCollinear,
      tfloat, floatCollinear]
    exact fun _ => h4
  refine ⟨hfirst, hsecond, ⟨[⟨0, 0⟩, ⟨ε, 1⟩, ⟨0, 3⟩], ⟨0, 3, true, true⟩, true,
    bx.make [⟨0, 0⟩, ⟨ε, 1⟩, ⟨0, 3⟩] true true⟩, ?_, rfl, ?_⟩
  · simp [tsequenceMake_eq_ok, tsequenceMakeCheck_eq_ok, hfirst, periodOf]
  · simp [tsequenceRead, tsequenceWrite, tsequenceMake, tsequenceMakeCheck, ensureValidTinstantarr,
      hsecond, bind, Except.bind, pure, Except.pure, Except.map]

/-- At the tolerance `1e-5` of the code, the second normalization pass drops an
instant the first pass kept. -/
theorem tinstantarrNormalize_not_idempotent :
    tinstantarrNormalize (tfloat (1 / 100000))
        [⟨0, 0⟩, ⟨1 / 100000, 1⟩, ⟨-(1 / 100000) / 2, 2⟩, ⟨0, 3⟩] true =
      [⟨0, 0⟩, ⟨1 / 100000, 1⟩, ⟨0, 3⟩] ∧
    tinstantarrNormalize (tfloat (1 / 100000)) [⟨0, 0⟩, ⟨1 / 100000, 1⟩, ⟨0, 3⟩] true =
      [⟨0, 0⟩, ⟨0, 3⟩] ∧
    ∃ seq, tsequenceMake (tfloat (1 / 100000)) (tnumberBBox id)
          [⟨0, 0⟩, ⟨1 / 100000, 1⟩, ⟨-(1 / 100000) / 2, 2⟩, ⟨0, 3⟩] true true true true =
        .ok seq ∧ seq.instants = [⟨0, 0⟩, ⟨1 / 100000, 1⟩, ⟨0, 3⟩] ∧
      (tsequenceRead (tfloat (1 / 100000)) (tnumberBBox id) (tsequenceWrite seq)).map
        TSequence.instants = .ok [⟨0, 0⟩, ⟨0, 3⟩] :=
  tinstantarrNormalize_second_pass_drops (tnumberBBox id) _ (by norm_num)

/-- Normalization is idempotent with step interpolation for every base type, and
with linear interpolation of floats when collinearity is tested exactly; in both
cases `tsequence_read` gives back every sequence `tsequence_make` built with
normalization. -/
theorem tinstantarrNormalize_idempotent_step_or_exact {V B : Type} [DecidableEq V] :
    (∀ (bt : BaseType V) (instants : List (TInstant V)),
      tinstantarrNormalize bt (tinstantarrNormalize bt instants false) false =
        tinstantarrNormalize bt instants false) ∧
    (∀ instants : List (TInstant ℚ), instants.Chain' (fun inst1 inst2 => inst1.t < inst2.t) →
      tinstantarrNormalize (tfloat 0) (tinstantarrNormalize (tfloat 0) instants true) true =
        tinstantarrNormalize (tfloat 0) instants true) ∧
    (∀ (bt : BaseType V) (bx : BBoxOps V B) instants lowerInc upperInc seq,
      tsequenceMake bt bx instants lowerInc upperInc false true = .ok seq →
        tsequenceRead bt bx (tsequenceWrite seq) = .ok seq) ∧
    (∀ (bx : BBoxOps ℚ B) instants lowerInc upperInc seq,
      tsequenceMake (tfloat 0) bx instants lowerInc upperInc true true = .ok seq →
        tsequenceRead (tfloat 0) bx (tsequenceWrite seq) = .ok seq) := by
  have step : ∀ (bt : BaseType V) (instants : List (TInstant V)),
      tinstantarrNormalize bt (tinstantarrNormalize bt instants false) false =
        tinstantarrNormalize bt instants false := fun bt _ =>
    tinstantarrNormalize_idempotent_of_rerun bt false fun _ _ _ _ _ _ h =>
      tinstantarrNormalizeLoop_step_rerun bt h
  have exact : ∀ instants : List (TInstant ℚ),
      instants.Chain' (fun inst1 inst2 => inst1.t < inst2.t) →
      tinstantarrNormalize (tfloat 0) (tinstantarrNormalize (tfloat 0) instants true) true =
        tinstantarrNormalize (tfloat 0) instants true := fun _ hchain =>
    tinstantarrNormalize_idempotent_of_rerun _ _ fun _ _ _ _ _ heq h =>
      tinstantarrNormalizeLoop_exact_rerun (heq ▸ chain'_t_iff_pairwise.mp hchain) h
  refine ⟨step, exact, fun bt _ _ _ _ _ h => tsequenceRead_tsequenceWrite_of_idempotent h (step bt _),
    fun _ instants _ _ _ h => tsequenceRead_tsequenceWrite_of_idempotent h (exact instants ?_)⟩
  exact (tsequenceMakeCheck_eq_ok.mp (tsequenceMake_eq_ok.mp h).1).2.1

/-- The float instants `0@0, 1@1, 2@2, 5@3` are in time order, so normalizing them
exactly twice gives what once gives, and `tsequence_read` gives back the step and the
linear sequences `tsequence_make` builds from them with normalization. -/
theorem tinstantarrNormalize_idempotent_step_or_exact_floats :
    ([⟨0, 0⟩, ⟨1, 1⟩, ⟨2, 2⟩, ⟨5, 3⟩] : List (TInstant ℚ)).Chain'
      (fun inst1 inst2 => inst1.t < inst2.t) ∧
    tinstantarrNormalize (tfloat 0)
        (tinstantarrNormalize (tfloat 0) [⟨0, 0⟩, ⟨1, 1⟩, ⟨2, 2⟩, ⟨5, 3⟩] true) true =
      tinstantarrNormalize (tfloat 0) [⟨0, 0⟩, ⟨1, 1⟩, ⟨2, 2⟩, ⟨5, 3⟩] true ∧
    (∃ seq, tsequenceMake (tfloat 0) (tnumberBBox id) [⟨0, 0⟩, ⟨1, 1⟩, ⟨2, 2⟩, ⟨5, 3⟩] true true
        false true = .ok seq ∧
      tsequenceRead (tfloat 0) (tnumberBBox id) (tsequenceWrite seq) = .ok seq) ∧
    ∃ seq, tsequenceMake (tfloat 0) (tnumberBBox id) [⟨0, 0⟩, ⟨1, 1⟩, ⟨2, 2⟩, ⟨5, 3⟩] true true
        true true = .ok seq ∧
      tsequenceRead (tfloat 0) (tnumberBBox id) (tsequenceWrite seq) = .ok seq := by
  have hchain : ([⟨0, 0⟩, ⟨1, 1⟩, ⟨2, 2⟩, ⟨5, 3⟩] : List (TInstant ℚ)).Chain'
      (fun inst1 inst2 => inst1.t < inst2.t) := by simp
  have hstep : tsequenceMakeCheck ([⟨0, 0⟩, ⟨1, 1⟩, ⟨2, 2⟩, ⟨5, 3⟩] : List (TInstant ℚ)) true
      true false = .ok () :=
    tsequenceMakeCheck_eq_ok.mpr ⟨by simp, by simp, by simp, by simp⟩
  have hlinear : tsequenceMakeCheck ([⟨0, 0⟩, ⟨1, 1⟩, ⟨2, 2⟩, ⟨5, 3⟩] : List (TInstant ℚ)) true
      true true = .ok () :=
    tsequenceMakeCheck_eq_ok.mpr ⟨by simp, by simp, by simp, by simp⟩
  have h := tinstantarrNormalize_idempotent_step_or_exact (V := ℚ) (B := TBox)
  exact ⟨hchain, h.2.1 _ hchain,
    ⟨_, tsequenceMake_eq_ok.mpr ⟨hstep, rfl⟩, h.2.2.1 _ _ _ _ _ _ (tsequenceMake_eq_ok.mpr ⟨hstep, rfl⟩)⟩,
    _, tsequenceMake_eq_ok.mpr ⟨hlinear, rfl⟩,
    h.2.2.2 _ _ _ _ _ (tsequenceMake_eq_ok.mpr ⟨hlinear, rfl⟩)⟩

end TemporalSequence
