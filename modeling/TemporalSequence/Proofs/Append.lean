import TemporalSequence.Proofs.Normalize
import TemporalSequence.Invariant

/-!
# Appending an instant

`tsequence_append_tinstant` does not rerun `tinstantarr_normalize` on the extended
array: it tests the last two instants of the sequence against the appended one and
drops the last instant when that triple is redundant. On a normalized array the
normalization pass keeps every instant up to the last one, so that one test is the
only one the pass makes differently, and append builds the instants and the period
`tsequence_make` would build.
-/

namespace TemporalSequence

variable {V B : Type} [DecidableEq V]

lemma appendReplacesLast_eq_normalizeRedundant (bt : BaseType V) (linear : Bool)
    (inst1 inst2 inst : TInstant V) :
    appendReplacesLast bt linear inst1 inst2 inst = normalizeRedundant bt linear inst1 inst2 inst := by
  cases linear
  · simpa [appendReplacesLast, normalizeRedundant] using fun h _ => h
  · simp [appendReplacesLast, normalizeRedundant]

omit [DecidableEq V] in
lemma lastTwo?_cons_cons {α : Type} : ∀ (a b : α) (rest : List α),
    ∃ x y, lastTwo? (a :: b :: rest) = some (x, y)
  | a, b, [] => ⟨a, b, rfl⟩
  | _, b, c :: rest => lastTwo?_cons_cons b c rest

omit [DecidableEq V] in
@[simp] lemma lastT_append_singleton (instants : List (TInstant V)) (inst : TInstant V) :
    lastT (instants ++ [inst]) = inst.t := by
  simp [lastT]

section Loop

variable (bt : BaseType V) (linear : Bool)

/-- When the loop keeps all its candidates, appending an instant keeps them too, but
the last one, which the loop then tests against the appended instant. -/
lemma tinstantarrNormalizeLoop_append_of_eq_self (inst : TInstant V) :
    ∀ {inst1 inst2 x y : TInstant V} {rest : List (TInstant V)},
      tinstantarrNormalizeLoop bt linear inst1 inst2 rest = inst2 :: rest →
      lastTwo? (inst1 :: inst2 :: rest) = some (x, y) →
      tinstantarrNormalizeLoop bt linear inst1 inst2 (rest ++ [inst]) =
        (if normalizeRedundant bt linear x y inst then (inst2 :: rest).dropLast else inst2 :: rest) ++
          [inst]
  | inst1, inst2, x, y, [], _, hl => by
    simp only [lastTwo?, Option.some.injEq, Prod.mk.injEq] at hl
    obtain ⟨rfl, rfl⟩ := hl
    rw [List.nil_append, tinstantarrNormalizeLoop_cons]
    split_ifs <;> rfl
  | inst1, inst2, x, y, inst3 :: rest, h, hl => by
    rw [tinstantarrNormalizeLoop_cons] at h
    split_ifs at h with hred
    · -- dropping `inst2` would leave fewer instants than the loop returned
      have hlen := congrArg List.length h
      have hle := (tinstantarrNormalizeLoop_sublist bt linear inst1 inst3 rest).length_le
      simp only [List.length_cons] at hlen hle
      omega
    · rw [List.cons_append, tinstantarrNormalizeLoop_cons, if_neg hred,
        tinstantarrNormalizeLoop_append_of_eq_self inst (List.cons.inj h).2 hl]
      split_ifs <;> simp

end Loop

lemma tinstantarrNormalize_append_of_eq_self (bt : BaseType V) (linear : Bool)
    {instants : List (TInstant V)} (hnorm : tinstantarrNormalize bt instants linear = instants)
    (inst : TInstant V) {x y : TInstant V} (hl : lastTwo? instants = some (x, y)) :
    tinstantarrNormalize bt (instants ++ [inst]) linear =
      (if normalizeRedundant bt linear x y inst then instants.dropLast else instants) ++ [inst] := by
  match instants, hnorm, hl with
  | inst1 :: inst2 :: rest, hnorm, hl =>
    have hloop := (List.cons.inj hnorm).2
    simp only [List.cons_append, tinstantarrNormalize,
      tinstantarrNormalizeLoop_append_of_eq_self bt linear inst hloop hl]
    split_ifs <;> simp

/-- Appending an instant to a well-formed sequence whose instant array is a fixpoint of
`tinstantarr_normalize` gives the instants, the period and the interpolation of
`tsequence_make` with normalization on the extended array, with the lower bound of the
sequence and an inclusive upper bound. -/
theorem tsequence_append_tinstant_eq_make (bt : BaseType V) (bx : BBoxOps V B)
    {seq : TSequence V B} {inst : TInstant V} (hwf : seq.WellFormed)
    (hnorm : tinstantarrNormalize bt seq.instants seq.linear = seq.instants)
    (ht : lastT seq.instants < inst.t) :
    ∃ seq1 seq2, tsequenceAppendTinstant bt bx seq inst = .ok seq1 ∧
      tsequenceMake bt bx (seq.instants ++ [inst]) seq.period.lowerInc true seq.linear true =
        .ok seq2 ∧
      seq1.instants = seq2.instants ∧ seq1.period = seq2.period ∧ seq1.linear = seq2.linear := by
  obtain ⟨first, rest, hfirst⟩ := List.exists_cons_of_ne_nil hwf.nonempty
  have hlower : seq.period.lower = first.t := by
    rw [hwf.period]
    simp [periodOf, hfirst]
  have hinc : (seq.instants ++ [inst]).Chain' fun a b => a.t < b.t := by
    refine hwf.increasing.append (List.chain'_singleton _) fun x hx y hy => ?_
    obtain rfl : inst = y := by simpa using hy
    have : lastT seq.instants = x.t := by simp [lastT, Option.mem_def.mp hx]
    omega
  have hcheck : tsequenceMakeCheck (seq.instants ++ [inst]) seq.period.lowerInc true seq.linear =
      .ok () :=
    tsequenceMakeCheck_eq_ok.mpr ⟨by simp, hinc, by simp [hfirst], by simp⟩
  have hlen : 1 < (seq.instants ++ [inst]).length := by simp [hfirst]
  rw [tsequenceAppendTinstant, if_neg (not_le.mpr ht)]
  rcases rest with _ | ⟨second, rest⟩
  · -- a single instant: append keeps it
    have hl : lastTwo? seq.instants = none := by rw [hfirst]; rfl
    refine ⟨_, _, rfl, tsequenceMake_eq_ok.mpr ⟨hcheck, rfl⟩, ?_, ?_, rfl⟩ <;> rw [hfirst]
    · rfl
    · simp [periodOf, hlower, tinstantarrNormalize]
  · obtain ⟨x, y, hl⟩ := lastTwo?_cons_cons first second rest
    rw [← hfirst] at hl
    refine ⟨_, _, rfl, tsequenceMake_eq_ok.mpr ⟨hcheck, rfl⟩, ?_, ?_, rfl⟩ <;>
      simp only [hl, hlen, and_self, if_true, appendReplacesLast_eq_normalizeRedundant,
        tinstantarrNormalize_append_of_eq_self bt _ hnorm inst hl]
    split_ifs <;> simp only [periodOf, lastT_append_singleton, hlower] <;> simp [hfirst]

/-- Appending `2@2` to the linear temporal float `[0@0, 1@1]` replaces its last instant,
as normalization of `[0@0, 1@1, 2@2]` drops it. -/
theorem tsequence_append_tinstant_eq_make_collinear :
    (⟨[⟨0, 0⟩, ⟨1, 1⟩], ⟨0, 1, true, true⟩, true, ⟨0, 1, 0, 1⟩⟩ : TSequence ℚ TBox).WellFormed ∧
    tinstantarrNormalize (tfloat (1 / 100000)) [⟨0, 0⟩, ⟨1, 1⟩] true = [⟨0, 0⟩, ⟨1, 1⟩] ∧
    lastT [(⟨0, 0⟩ : TInstant ℚ), ⟨1, 1⟩] < 2 ∧
    ∃ seq1 seq2, tsequenceAppendTinstant (tfloat (1 / 100000)) (tnumberBBox id)
        ⟨[⟨0, 0⟩, ⟨1, 1⟩], ⟨0, 1, true, true⟩, true, ⟨0, 1, 0, 1⟩⟩ ⟨2, 2⟩ = .ok seq1 ∧
      tsequenceMake (tfloat (1 / 100000)) (tnumberBBox id) ([⟨0, 0⟩, ⟨1, 1⟩] ++ [⟨2, 2⟩]) true true
        true true = .ok seq2 ∧
      seq1.instants = seq2.instants ∧ seq1.period = seq2.period ∧ seq1.linear = seq2.linear := by
  have hwf : (⟨[⟨0, 0⟩, ⟨1, 1⟩], ⟨0, 1, true, true⟩, true, ⟨0, 1, 0, 1⟩⟩ :
      TSequence ℚ TBox).WellFormed :=
    ⟨by simp, by simp, by simp [periodOf, lastT], by simp, by simp⟩
  have hnorm : tinstantarrNormalize (tfloat (1 / 100000)) [(⟨0, 0⟩ : TInstant ℚ), ⟨1, 1⟩] true =
      [⟨0, 0⟩, ⟨1, 1⟩] := rfl
  exact ⟨hwf, hnorm, by simp [lastT],
    tsequence_append_tinstant_eq_make _ (tnumberBBox id) hwf hnorm (by simp [lastT])⟩

end TemporalSequence
