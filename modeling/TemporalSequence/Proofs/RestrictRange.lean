import TemporalSequence.TNumber
import TemporalSequence.Proofs.Crossing

/-!
# Restriction of temporal floats to ranges

`tnumberseq_at_range1` intersects the value range of a linear segment with the
query range and takes the bound flags of the result either from the segment or
from the intersection. Two of its cases pick the wrong source: a range bound equal
to an endpoint value is not found as a crossing, so the segment flag is kept where
the range excludes the value, and a singleton intersection is placed at an endpoint
of the segment even when it is interior. `tnumberseq_restrict_ranges1` tests the
last value of a step sequence against the last range of the array only.
-/

namespace TemporalSequence

/-- The segment `1@0 -> 2@10` restricted to `(1, 3/2]` keeps `t = 0`, where the value
`1` is outside the range; restricted to `[3/2, 3/2]` it gives the instant `3/2@10`,
while the sequence is `2` at `10` and `3/2` at `5`. -/
theorem tnumberseqRestrictRange1_wrong_bounds (ε : ℚ) (hε : 0 < ε) (hε' : ε < 1 / 2) :
    tnumberseqRestrictRange1 ε (tnumberBBox id)
        ⟨[⟨1, 0⟩, ⟨2, 10⟩], ⟨0, 10, true, true⟩, true, ⟨1, 2, 0, 10⟩⟩
        ⟨1, 3 / 2, false, true⟩ true =
      .ok [⟨[⟨1, 0⟩, ⟨3 / 2, 5⟩], ⟨0, 5, true, true⟩, true, ⟨1, 3 / 2, 0, 5⟩⟩] ∧
    tnumberseqRestrictRange1 ε (tnumberBBox id)
        ⟨[⟨1, 0⟩, ⟨2, 10⟩], ⟨0, 10, true, true⟩, true, ⟨1, 2, 0, 10⟩⟩
        ⟨3 / 2, 3 / 2, true, true⟩ true =
      .ok [⟨[⟨3 / 2, 10⟩], ⟨10, 10, true, true⟩, true, ⟨3 / 2, 3 / 2, 10, 10⟩⟩] := by
  have h1 : tnumberseqIntersectionValue ε ⟨1, 0⟩ ⟨2, 10⟩ 1 = none := by
    simp [tnumberseqIntersectionValue, tnumberseqIntersectionFraction, hε]
  have h2 : tnumberseqIntersectionValue ε ⟨1, 0⟩ ⟨2, 10⟩ (3 / 2) = some 5 := by
    simp [tnumberseqIntersectionValue, tnumberseqIntersectionFraction]
    norm_num
    refine ⟨1 / 2, ⟨?_, rfl⟩, ?_⟩
    · rw [abs_of_pos (by norm_num)]; linarith
    · rw [longOfDouble_of_nonneg (by norm_num)]; norm_num
  constructor
  · simp [tnumberseqRestrictRange1, overlapsTboxRange, tnumberseqAtRangesLoop, tnumberseqAtRange1,
      rangeIntersect, FloatRange.isEmpty, tnumberseqAtRangeLast, tnumberseqAtRangesSegment,
      rangeContainsElem]
    norm_num [h1, h2, tsequenceMake, tsequenceMakeCheck, ensureValidTinstantarr,
      tsequenceAtTimestamp1, tsequenceValueAtTimestamp1, tfloat, periodOf, lastTwo?, tnumberBBox,
      tboxExpand]
    rfl
  · simp [tnumberseqRestrictRange1, overlapsTboxRange, tnumberseqAtRangesLoop, tnumberseqAtRange1,
      rangeIntersect, FloatRange.isEmpty, tnumberseqAtRangeLast, tnumberseqAtRangesSegment,
      rangeContainsElem]
    norm_num [tsequenceMake, tsequenceMakeCheck, ensureValidTinstantarr, periodOf, lastTwo?,
      tnumberBBox]
    rfl

theorem tnumberseqRestrictRange1_wrong_bounds_example :
    (0 : ℚ) < 1 / 100000 ∧ (1 / 100000 : ℚ) < 1 / 2 ∧
    tnumberseqRestrictRange1 (1 / 100000) (tnumberBBox id)
        ⟨[⟨1, 0⟩, ⟨2, 10⟩], ⟨0, 10, true, true⟩, true, ⟨1, 2, 0, 10⟩⟩
        ⟨1, 3 / 2, false, true⟩ true =
      .ok [⟨[⟨1, 0⟩, ⟨3 / 2, 5⟩], ⟨0, 5, true, true⟩, true, ⟨1, 3 / 2, 0, 5⟩⟩] ∧
    tnumberseqRestrictRange1 (1 / 100000) (tnumberBBox id)
        ⟨[⟨1, 0⟩, ⟨2, 10⟩], ⟨0, 10, true, true⟩, true, ⟨1, 2, 0, 10⟩⟩
        ⟨3 / 2, 3 / 2, true, true⟩ true =
      .ok [⟨[⟨3 / 2, 10⟩], ⟨10, 10, true, true⟩, true, ⟨3 / 2, 3 / 2, 10, 10⟩⟩] :=
  ⟨by norm_num, by norm_num,
    tnumberseqRestrictRange1_wrong_bounds (1 / 100000) (by norm_num) (by norm_num)⟩

/-- The step sequence `[5@0, 1@1]` restricted to the ranges `[0, 2]` and `[4, 6]`
together covers `[0, 1)` only, while restricting it to `[0, 2]` alone covers `1`. -/
theorem tnumberseqRestrictRanges1_checks_last_range_only (ε : ℚ) :
    tnumberseqRestrictRanges1 ε (tnumberBBox id)
        ⟨[⟨5, 0⟩, ⟨1, 1⟩], ⟨0, 1, true, true⟩, false, ⟨1, 5, 0, 1⟩⟩
        [⟨0, 2, true, true⟩, ⟨4, 6, true, true⟩] true =
      .ok [⟨[⟨5, 0⟩, ⟨5, 1⟩], ⟨0, 1, true, false⟩, false, ⟨5, 5, 0, 1⟩⟩] ∧
    tnumberseqRestrictRange1 ε (tnumberBBox id)
        ⟨[⟨5, 0⟩, ⟨1, 1⟩], ⟨0, 1, true, true⟩, false, ⟨1, 5, 0, 1⟩⟩ ⟨0, 2, true, true⟩ true =
      .ok [⟨[⟨1, 1⟩], ⟨1, 1, true, true⟩, false, ⟨1, 1, 1, 1⟩⟩] := by
  constructor
  · simp [tnumberseqRestrictRanges1, tnumberseqAtRangesLoop, tnumberseqAtRange1,
      tnumberseqAtRangeLast, rangeContainsElem, tsequenceMake, tsequenceMakeCheck,
      ensureValidTinstantarr, periodOf, lastTwo?, tnumberBBox, tboxExpand,
      tnumberseqAtRangesSegment, tsequencearrSort]
    norm_num
    rfl
  · simp [tnumberseqRestrictRange1, overlapsTboxRange, tnumberseqAtRangesLoop, tnumberseqAtRange1,
      tnumberseqAtRangeLast, rangeContainsElem, tsequenceMake, tsequenceMakeCheck,
      ensureValidTinstantarr, periodOf, lastTwo?, tnumberBBox, tboxExpand,
      tnumberseqAtRangesSegment]
    rfl

end TemporalSequence
