import TemporalSequence.Invariant
import TemporalSequence.TNumber
import Mathlib.Tactic.NormNum

/-!
# Functions that build a sequence without `tsequence_make`

`tfloatseq_to_tintseq` truncates the values of a step float sequence in place in a
copy. Truncation can make two consecutive values equal, which leaves a redundant
instant in the array, and it keeps the float box of the input, which no longer is
the box of the truncated values.
-/

namespace TemporalSequence

/-- Casting the valid step float sequence `[1.2@0, 1.7@1, 2@2]` to integers gives
`[1@0, 1@1, 2@2]` with the box `[1.2, 2]` of the floats: the array is not
normalized and the box is not the box `[1, 2]` of the integers. -/
theorem tfloatseqToTintseq_breaks_invariant (ε : ℚ) :
    TSequence.Valid (tfloat ε) (tnumberBBox id)
      (⟨[⟨6 / 5, 0⟩, ⟨17 / 10, 1⟩, ⟨2, 2⟩], ⟨0, 2, true, true⟩, false, ⟨6 / 5, 2, 0, 2⟩⟩ :
        TSequence ℚ TBox) ∧
    tfloatseqToTintseq
        (⟨[⟨6 / 5, 0⟩, ⟨17 / 10, 1⟩, ⟨2, 2⟩], ⟨0, 2, true, true⟩, false, ⟨6 / 5, 2, 0, 2⟩⟩ :
          TSequence ℚ TBox) =
      .ok ⟨[⟨1, 0⟩, ⟨1, 1⟩, ⟨2, 2⟩], ⟨0, 2, true, true⟩, false, ⟨6 / 5, 2, 0, 2⟩⟩ ∧
    ¬TSequence.Valid stepOnly (tnumberBBox fun v : ℤ => (v : ℚ))
      (⟨[⟨1, 0⟩, ⟨1, 1⟩, ⟨2, 2⟩], ⟨0, 2, true, true⟩, false, ⟨6 / 5, 2, 0, 2⟩⟩ :
        TSequence ℤ TBox) := by
  have h1 : longOfDouble (6 / 5) = 1 := by
    rw [longOfDouble_of_nonneg (by norm_num), Int.floor_eq_iff]
    norm_num
  have h2 : longOfDouble (17 / 10) = 1 := by
    rw [longOfDouble_of_nonneg (by norm_num), Int.floor_eq_iff]
    norm_num
  have h3 : longOfDouble 2 = 2 := by
    rw [longOfDouble_of_nonneg (by norm_num), Int.floor_eq_iff]
    norm_num
  refine ⟨?_, ?_, ?_⟩
  · simp [TSequence.valid_iff, lastTwo?, periodOf, lastT, tinstantarrNormalize, tinstantarrNormalizeLoop,
      normalizeRedundant, tnumberBBox, tboxExpand]
    norm_num
  · simp [tfloatseqToTintseq, tsequenceCopy, int32GetDatum, h1, h2, h3]
    rfl
  · simp [TSequence.valid_iff, tinstantarrNormalize, tinstantarrNormalizeLoop, normalizeRedundant]

end TemporalSequence
