import TemporalSequence.Basic
import Mathlib.Algebra.Order.AbsoluteValue

/-!
# Segment math

The functions of `tsequence.c` that branch on the base type of the values:
collinearity of three values, interpolation inside a segment, and the crossing of
a segment with a value or with a synchronized segment. `BaseType` gathers one
branch of each for a base type; `tfloat` is the branch for `float8` values and
`tgeompoint` the one for planar points, translated from the C code. The branches
for geographic points call geodesic primitives of PostGIS, which are parameters.
-/

namespace TemporalSequence

/-- The branches of the segment math of `tsequence.c` for one base type. -/
structure BaseType (V : Type) where
  /-- `datum_collinear` once the ratio of the two durations is computed. -/
  collinear : V → V → V → ℚ → Bool
  /-- The interpolation branch of `tsequence_value_at_timestamp1`. -/
  interpolate : V → V → ℚ → V
  /-- The branch of `tlinearseq_intersection_value`: the crossing timestamp. -/
  intersectionValue : TInstant V → TInstant V → V → Option ℤ
  /-- The branch of `tsequence_intersection` for two linear segments. -/
  intersection : TInstant V → TInstant V → TInstant V → TInstant V → Option ℤ

variable {V : Type} [DecidableEq V]

/-- `datum_collinear`: the ratio `(t2 - t1) / (t3 - t1)` is computed in doubles. -/
def datumCollinear (bt : BaseType V) (value1 value2 value3 : V) (t1 t2 t3 : ℤ) : Bool :=
  bt.collinear value1 value2 value3 (((t2 - t1 : ℤ) : ℚ) / ((t3 - t1 : ℤ) : ℚ))

/-- `tsequence_value_at_timestamp1`: the value of the segment `inst1 -> inst2` at `t`. -/
def tsequenceValueAtTimestamp1 (bt : BaseType V) (inst1 inst2 : TInstant V) (linear : Bool)
    (t : ℤ) : V :=
  if inst1.value = inst2.value ∨ inst1.t = t ∨ (linear = false ∧ t < inst2.t) then inst1.value
  else if inst2.t = t then inst2.value
  else bt.interpolate inst1.value inst2.value
    (((t - inst1.t : ℤ) : ℚ) / ((inst2.t - inst1.t : ℤ) : ℚ))

/-- `tsequence_at_timestamp1`: the instant of the segment at `t`. -/
def tsequenceAtTimestamp1 (bt : BaseType V) (inst1 inst2 : TInstant V) (linear : Bool)
    (t : ℤ) : TInstant V :=
  ⟨tsequenceValueAtTimestamp1 bt inst1 inst2 linear t, t⟩

/-- `tlinearseq_intersection_value`: the value taken and the timestamp of an interior
crossing of the segment with `value`. -/
def tlinearseqIntersectionValue (bt : BaseType V) (inst1 inst2 : TInstant V) (value : V) :
    Option (V × ℤ) :=
  if value = inst1.value ∨ value = inst2.value then none
  else (bt.intersectionValue inst1 inst2 value).map fun t =>
    (tsequenceValueAtTimestamp1 bt inst1 inst2 true t, t)

/-- `tsequence_intersection`: the two values and the timestamp at which two
synchronized segments cross. -/
def tsequenceIntersection (bt : BaseType V) (start1 end1 : TInstant V) (linear1 : Bool)
    (start2 end2 : TInstant V) (linear2 : Bool) : Option (V × V × ℤ) :=
  if !linear1 then
    (tlinearseqIntersectionValue bt start2 end2 start1.value).map fun r => (start1.value, r.1, r.2)
  else if !linear2 then
    (tlinearseqIntersectionValue bt start1 end1 start2.value).map fun r => (r.1, start2.value, r.2)
  else (bt.intersection start1 end1 start2 end2).map fun t =>
    (tsequenceValueAtTimestamp1 bt start1 end1 true t,
      tsequenceValueAtTimestamp1 bt start2 end2 true t, t)

/-- A base type with step interpolation only (`int4`, `bool`, `text`):
`datum_collinear` answers false for it, and the interpolation branch, never reached
with step interpolation, keeps the start value. -/
def stepOnly : BaseType V where
  collinear _ _ _ _ := false
  interpolate start _ _ := start
  intersectionValue _ _ _ := none
  intersection _ _ _ _ := none

/-! ## Floats -/

/-- `float_collinear`. -/
def floatCollinear (ε x1 x2 x3 ratio : ℚ) : Bool :=
  let x := x1 + (x3 - x1) * ratio
  |x2 - x| ≤ ε

/-- The fraction of `tnumberseq_intersection_value` at which the segment
`dvalue1 -> dvalue2` takes `dvalue`, when it is not within `ε` of a bound. -/
def tnumberseqIntersectionFraction (ε dvalue1 dvalue2 dvalue : ℚ) : Option ℚ :=
  let min := min dvalue1 dvalue2
  let max := max dvalue1 dvalue2
  if dvalue < min ∨ dvalue > max then none
  else
    let range := max - min
    let part := dvalue - min
    let fraction := if dvalue1 < dvalue2 then part / range else 1 - part / range
    if |fraction| < ε ∨ |fraction - 1| < ε then none else some fraction

/-- `tnumberseq_intersection_value`. -/
def tnumberseqIntersectionValue (ε : ℚ) (inst1 inst2 : TInstant ℚ) (value : ℚ) : Option ℤ :=
  (tnumberseqIntersectionFraction ε inst1.value inst2.value value).map fun fraction =>
    inst1.t + longOfDouble (((inst2.t - inst1.t : ℤ) : ℚ) * fraction)

/-- The fraction of `tnumberseq_intersection` at which two synchronized segments of
floats are equal. -/
def tnumberseqIntersectionFraction2 (ε x1 x2 x3 x4 : ℚ) : Option ℚ :=
  let denum := x2 - x1 - x4 + x3
  if denum = 0 then none
  else
    let fraction := (x3 - x1) / denum
    if fraction ≤ ε ∨ fraction ≥ 1 - ε then none else some fraction

/-- `tnumberseq_intersection`. -/
def tnumberseqIntersection (ε : ℚ) (start1 end1 start2 end2 : TInstant ℚ) : Option ℤ :=
  (tnumberseqIntersectionFraction2 ε start1.value end1.value start2.value end2.value).map
    fun fraction => start1.t + longOfDouble (((end1.t - start1.t : ℤ) : ℚ) * fraction)

/-- The base type `float8` of temporal floats. -/
def tfloat (ε : ℚ) : BaseType ℚ where
  collinear := floatCollinear ε
  interpolate start finish ratio := start + (finish - start) * ratio
  intersectionValue := tnumberseqIntersectionValue ε
  intersection := tnumberseqIntersection ε

/-! ## Points -/

/-- A point of PostGIS with its coordinates; `z` is ignored for planar points. -/
structure Point where
  x : ℚ
  y : ℚ
  z : ℚ
deriving DecidableEq, Repr

/-- Modelled from the spec: `interpolate_point4d` and `geomseg_interpolate_point`,
the point at a fraction of a planar segment. -/
def interpolatePoint (p1 p2 : Point) (ratio : ℚ) : Point :=
  ⟨p1.x + (p2.x - p1.x) * ratio, p1.y + (p2.y - p1.y) * ratio, p1.z + (p2.z - p1.z) * ratio⟩

/-- The comparison of `geompoint_collinear` and `geogpoint_collinear` between the
middle point and the interpolated one. -/
def pointClose (ε : ℚ) (hasz : Bool) (p2 p : Point) : Bool :=
  if hasz then |p2.x - p.x| ≤ ε && |p2.y - p.y| ≤ ε && |p2.z - p.z| ≤ ε
  else |p2.x - p.x| ≤ ε && |p2.y - p.y| ≤ ε

/-- `geompoint_collinear`. -/
def geompointCollinear (ε : ℚ) (hasz : Bool) (value1 value2 value3 : Point) (ratio : ℚ) : Bool :=
  pointClose ε hasz value2 (interpolatePoint value1 value3 ratio)

/-- `tpointseq_intersection_value`; `locatePoint` is `geomseg_locate_point` or
`geogseg_locate_point`, returning the fraction and the distance. -/
def tpointseqIntersectionValue (ε : ℚ) (locatePoint : Point → Point → Point → ℚ × ℚ)
    (inst1 inst2 : TInstant Point) (value : Point) : Option ℤ :=
  let located := locatePoint inst1.value inst2.value value
  if located.2 ≥ ε ∨ |located.1| < ε ∨ |located.1 - 1| < ε then none
  else some (inst1.t + longOfDouble (((inst2.t - inst1.t : ℤ) : ℚ) * located.1))

/-- The fraction on one axis in the intersection of two synchronized point segments:
`0` on a parallel axis, `none` when it is within `ε` of a bound. -/
def axisFraction (ε num denum : ℚ) : Option ℚ :=
  if denum = 0 then some 0
  else if num / denum ≤ ε ∨ num / denum ≥ 1 - ε then none
  else some (num / denum)

/-- The fraction computed by `tgeompointseq_intersection`. -/
def tgeompointseqIntersectionFraction (ε : ℚ) (hasz : Bool) (p1 p2 p3 p4 : Point) :
    Option ℚ := do
  let xdenum := p2.x - p1.x - p4.x + p3.x
  let ydenum := p2.y - p1.y - p4.y + p3.y
  if hasz then
    let zdenum := p2.z - p1.z - p4.z + p3.z
    if xdenum = 0 ∧ ydenum = 0 ∧ zdenum = 0 then none
    let xfraction ← axisFraction ε (p3.x - p1.x) xdenum
    let yfraction ← axisFraction ε (p3.y - p1.y) ydenum
    let zfraction ← axisFraction ε (p3.z - p1.z) zdenum
    if (xdenum ≠ 0 ∧ ydenum ≠ 0 ∧ zdenum ≠ 0 ∧
          |xfraction - yfraction| > ε ∧ |xfraction - zfraction| > ε) ∨
        (xdenum = 0 ∧ ydenum ≠ 0 ∧ zdenum ≠ 0 ∧ |yfraction - zfraction| > ε) ∨
        (xdenum ≠ 0 ∧ ydenum = 0 ∧ zdenum ≠ 0 ∧ |xfraction - zfraction| > ε) ∨
        (xdenum ≠ 0 ∧ ydenum ≠ 0 ∧ zdenum = 0 ∧ |xfraction - yfraction| > ε) then none
    some (if xdenum ≠ 0 then xfraction else if ydenum ≠ 0 then yfraction else zfraction)
  else
    if xdenum = 0 ∧ ydenum = 0 then none
    let xfraction ← axisFraction ε (p3.x - p1.x) xdenum
    let yfraction ← axisFraction ε (p3.y - p1.y) ydenum
    if xdenum ≠ 0 ∧ ydenum ≠ 0 ∧ |xfraction - yfraction| > ε then none
    some (if xdenum ≠ 0 then xfraction else yfraction)

/-- `tgeompointseq_intersection`. -/
def tgeompointseqIntersection (ε : ℚ) (hasz : Bool) (start1 end1 start2 end2 : TInstant Point) :
    Option ℤ :=
  (tgeompointseqIntersectionFraction ε hasz start1.value end1.value start2.value end2.value).map
    fun fraction => start1.t + longOfDouble (((end1.t - start1.t : ℤ) : ℚ) * fraction)

/-- The fraction computed by `tgeogpointseq_intersection` from the cartesian
coordinates `A1 A2 B1 B2` of the four points; `inter` is the answer of
`edge_intersects`. -/
def tgeogpointseqIntersectionFraction (ε : ℚ) (inter : Bool) (A1 A2 B1 B2 : Point) :
    Option ℚ := do
  if !inter then none
  let xdenum := A2.x - A1.x - B2.x + B1.x
  let ydenum := A2.y - A1.y - B2.y + B1.y
  let zdenum := A2.z - A1.z - B2.z + B1.z
  if xdenum = 0 ∧ ydenum = 0 ∧ zdenum = 0 then none
  let xfraction ← axisFraction ε (B1.x - A1.x) xdenum
  let yfraction ← axisFraction ε (B1.y - A1.y) ydenum
  let zfraction ← axisFraction ε (B1.z - A1.z) zdenum
  if xdenum ≠ 0 ∧ ydenum ≠ 0 ∧ zdenum ≠ 0 ∧
      |xfraction - yfraction| ≤ ε ∧ |xfraction - zfraction| ≤ ε then
    some ((xfraction + yfraction + zfraction) / 3)
  else if xdenum = 0 ∧ ydenum ≠ 0 ∧ zdenum ≠ 0 ∧ |yfraction - zfraction| ≤ ε then
    some ((yfraction + zfraction) / 2)
  else if xdenum ≠ 0 ∧ ydenum = 0 ∧ zdenum ≠ 0 ∧ |xfraction - zfraction| ≤ ε then
    some ((xfraction + zfraction) / 2)
  else if xdenum ≠ 0 ∧ ydenum ≠ 0 ∧ zdenum = 0 ∧ |xfraction - yfraction| ≤ ε then
    some ((xfraction + yfraction) / 2)
  else if xdenum ≠ 0 then some xfraction
  else if ydenum ≠ 0 then some yfraction
  else if zdenum ≠ 0 then some zfraction
  else none

/-- `tgeogpointseq_intersection`; `geog2cart` maps a geographic point to its
cartesian coordinates and `edgeIntersects` is `edge_intersects`. -/
def tgeogpointseqIntersection (ε : ℚ) (geog2cart : Point → Point)
    (edgeIntersects : Point → Point → Point → Point → Bool)
    (start1 end1 start2 end2 : TInstant Point) : Option ℤ :=
  let A1 := geog2cart start1.value
  let A2 := geog2cart end1.value
  let B1 := geog2cart start2.value
  let B2 := geog2cart end2.value
  (tgeogpointseqIntersectionFraction ε (edgeIntersects A1 A2 B1 B2) A1 A2 B1 B2).map
    fun fraction => start1.t + longOfDouble (((end1.t - start1.t : ℤ) : ℚ) * fraction)

/-- The base type `geometry` of temporal geometric points. -/
def tgeompoint (ε : ℚ) (hasz : Bool) (locatePoint : Point → Point → Point → ℚ × ℚ) :
    BaseType Point where
  collinear := geompointCollinear ε hasz
  interpolate := interpolatePoint
  intersectionValue := tpointseqIntersectionValue ε locatePoint
  intersection := tgeompointseqIntersection ε hasz

/-- The base type `geography` of temporal geographic points; `interpolateGeog` is
`geogseg_interpolate_point`. -/
def tgeogpoint (ε : ℚ) (hasz : Bool) (locatePoint : Point → Point → Point → ℚ × ℚ)
    (interpolateGeog : Point → Point → ℚ → Point) (geog2cart : Point → Point)
    (edgeIntersects : Point → Point → Point → Point → Bool) : BaseType Point where
  collinear value1 value2 value3 ratio :=
    pointClose ε hasz value2 (interpolateGeog value1 value3 ratio)
  interpolate := interpolateGeog
  intersectionValue := tpointseqIntersectionValue ε locatePoint
  intersection := tgeogpointseqIntersection ε geog2cart edgeIntersects

end TemporalSequence
