import TemporalSequence.SegmentMath
import Mathlib.Tactic.Positivity
import Mathlib.Tactic.NormNum
import Mathlib.Tactic.Linarith
import Mathlib.Tactic.Ring

/-!
# Crossing timestamps

Every crossing function of `tsequence.c` checks its fraction against
`(EPSILON, 1 - EPSILON)` and then returns `t1 + (long) ((t2 - t1) * fraction)`.
The truncation puts the timestamp on `t1` when the segment is shorter than
`1 / fraction` microseconds, where the segment has its first value and not the
target.
-/

namespace TemporalSequence

lemma longOfDouble_half : longOfDouble 2⁻¹ = 0 := by
  rw [longOfDouble_of_nonneg (by norm_num), Int.floor_eq_iff]
  norm_num

/-- A segment of one microsecond: the float crossing functions find the crossing at
the middle of the segment and still return its lower bound as the timestamp, where
the segment takes its first value and not the target. -/
theorem tfloat_crossing_at_lower_bound (ε : ℚ) (hε : ε < 1 / 2) :
    tlinearseqIntersectionValue (tfloat ε) ⟨0, 0⟩ ⟨2, 1⟩ 1 = some (0, 0) ∧
      tnumberseqIntersection ε ⟨0, 0⟩ ⟨2, 1⟩ ⟨2, 0⟩ ⟨0, 1⟩ = some 0 := by
  have hfrac : tnumberseqIntersectionFraction ε 0 2 1 = some (1 / 2) := by
    simp only [tnumberseqIntersectionFraction]
    norm_num
    intro h
    rw [abs_of_pos (by norm_num)] at h
    linarith
  have hfrac2 : tnumberseqIntersectionFraction2 ε 0 2 2 0 = some (1 / 2) := by
    have h3 : ¬ ((1 : ℚ) / 2 ≤ ε ∨ 1 / 2 ≥ 1 - ε) := by
      rw [not_or, not_le, not_le]; constructor <;> linarith
    simp only [tnumberseqIntersectionFraction2]
    norm_num
    simpa using h3
  refine ⟨?_, ?_⟩
  · simp [tlinearseqIntersectionValue, tfloat, tnumberseqIntersectionValue, hfrac,
      longOfDouble_half, tsequenceValueAtTimestamp1]
  · simp [tnumberseqIntersection, hfrac2, longOfDouble_half]

theorem tfloat_crossing_at_lower_bound_example :
    (1 / 100000 : ℚ) < 1 / 2 ∧
      tlinearseqIntersectionValue (tfloat (1 / 100000)) ⟨0, 0⟩ ⟨2, 1⟩ 1 = some (0, 0) ∧
      tnumberseqIntersection (1 / 100000) ⟨0, 0⟩ ⟨2, 1⟩ ⟨2, 0⟩ ⟨0, 1⟩ = some 0 :=
  ⟨by norm_num, tfloat_crossing_at_lower_bound (1 / 100000) (by norm_num)⟩

/-! ## Synchronized point segments -/

lemma interpolatePoint_x_sub (p1 p2 p3 p4 : Point) (f : ℚ) :
    (interpolatePoint p1 p2 f).x - (interpolatePoint p3 p4 f).x =
      (p1.x - p3.x) + (p2.x - p1.x - p4.x + p3.x) * f := by
  simp only [interpolatePoint]
  ring

/-- Two planar segments one unit apart on the x axis, where their denominator is zero:
`tgeompointseq_intersection` takes the fraction of the y axis alone and reports a
crossing at half their duration, although the segments are one unit apart at every
fraction. -/
theorem tgeompointseq_intersection_parallel_offset :
    tgeompointseqIntersectionFraction (1 / 100000) false ⟨0, 0, 0⟩ ⟨0, 2, 0⟩ ⟨1, 2, 0⟩ ⟨1, 0, 0⟩ =
      some (1 / 2) ∧
    tgeompointseqIntersection (1 / 100000) false ⟨⟨0, 0, 0⟩, 0⟩ ⟨⟨0, 2, 0⟩, 2⟩ ⟨⟨1, 2, 0⟩, 0⟩
      ⟨⟨1, 0, 0⟩, 2⟩ = some 1 ∧
    ∀ f : ℚ, (interpolatePoint ⟨0, 0, 0⟩ ⟨0, 2, 0⟩ f).x - (interpolatePoint ⟨1, 2, 0⟩ ⟨1, 0, 0⟩ f).x = -1 := by
  have hf : tgeompointseqIntersectionFraction (1 / 100000) false ⟨0, 0, 0⟩ ⟨0, 2, 0⟩ ⟨1, 2, 0⟩
      ⟨1, 0, 0⟩ = some (1 / 2) := by
    simp [tgeompointseqIntersectionFraction, axisFraction]
    norm_num
  refine ⟨hf, ?_, fun f => by rw [interpolatePoint_x_sub]; norm_num⟩
  rw [tgeompointseqIntersection, hf]
  simp [longOfDouble]

end TemporalSequence
