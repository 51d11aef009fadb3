import TemporalSequence.RestrictTime
import Mathlib.Data.List.Sort
import Mathlib.Data.List.Destutter

/-!
# Temporal numbers and ranges of values

The bounding box `TBOX` of a temporal number, the least and greatest values of a
sequence, its distinct values, and the restriction of a temporal float to (the
complement of) a range or an array of ranges of values. The box functions of
`temporal_boxops.c`, the array functions `datumarr_sort` and
`datumarr_remove_duplicates` and the range functions of PostgreSQL are modelled from
their specification; ranges have finite bounds.
-/

namespace TemporalSequence

/-- A `TBOX`: the extent of the values and of the timestamps. -/
structure TBox where
  xmin : ℚ
  xmax : ℚ
  tmin : ℤ
  tmax : ℤ
deriving DecidableEq, Repr

/-- Modelled from the spec: `temporal_bbox_expand` of two `TBOX`es. -/
def tboxExpand (box1 box2 : TBox) : TBox :=
  ⟨min box1.xmin box2.xmin, max box1.xmax box2.xmax, min box1.tmin box2.tmin,
    max box1.tmax box2.tmax⟩

/-- Modelled from the spec: the box functions of `temporal_boxops.c` for a temporal
number whose values are read as doubles by `toDouble`. -/
def tnumberBBox {V : Type} (toDouble : V → ℚ) : BBoxOps V TBox where
  make instants _ _ := match instants with
    | [] => ⟨0, 0, 0, 0⟩
    | inst :: rest => rest.foldl (fun box i => tboxExpand box
        ⟨toDouble i.value, toDouble i.value, i.t, i.t⟩)
        ⟨toDouble inst.value, toDouble inst.value, inst.t, inst.t⟩
  ofInstant inst := ⟨toDouble inst.value, toDouble inst.value, inst.t, inst.t⟩
  expand := tboxExpand
  ofPeriod := none
  restrictValue box value := box.xmin ≤ toDouble value ∧ toDouble value ≤ box.xmax

/-- Modelled from the spec: `temporal_bbox_shift` of a `TBOX`, whose time extent
`timestamptz_pl_interval` with the interval (`plInterval`) shifts. -/
def tboxShift (plInterval : ℤ → ℤ) (box : TBox) : TBox :=
  { box with tmin := plInterval box.tmin, tmax := plInterval box.tmax }

/-- A range of `float8` values with finite bounds (`floatrange`). -/
structure FloatRange where
  lower : ℚ
  upper : ℚ
  lowerInc : Bool
  upperInc : Bool
deriving DecidableEq, Repr

/-- Modelled from the spec: `RangeIsEmpty`. -/
def FloatRange.isEmpty (r : FloatRange) : Bool :=
  r.upper < r.lower || (r.lower == r.upper && !(r.lowerInc && r.upperInc))

/-- Modelled from the spec: `range_contains_elem_internal`. -/
def rangeContainsElem (r : FloatRange) (x : ℚ) : Bool :=
  (r.lower < x || (r.lowerInc && r.lower == x)) && (x < r.upper || (r.upperInc && x == r.upper))

/-- Modelled from the spec: `range_intersect`, the larger lower bound and the smaller
upper bound, an exclusive bound winning a tie. -/
def rangeIntersect (r1 r2 : FloatRange) : FloatRange :=
  ⟨max r1.lower r2.lower, min r1.upper r2.upper,
    if r1.lower < r2.lower then r2.lowerInc else if r2.lower < r1.lower then r1.lowerInc
      else r1.lowerInc && r2.lowerInc,
    if r1.upper < r2.upper then r1.upperInc else if r2.upper < r1.upper then r2.upperInc
      else r1.upperInc && r2.upperInc⟩

/-- Modelled from the spec: `overlaps_tbox_tbox_internal` of the box of a sequence
and the box `range_to_tbox_internal` of a range, which has no time extent. -/
def overlapsTboxRange (box : TBox) (r : FloatRange) : Bool :=
  box.xmin ≤ r.upper && r.lower ≤ box.xmax

/-- Modelled from the spec: `tsequenceset_get_time` of the sequence set made from an
array of sequences in time order, as the list of their periods. -/
def tsequencesetGetTime {V B : Type} (seqs : List (TSequence V B)) : List Period :=
  seqs.map TSequence.period

/-- Modelled from the spec: `tsequencearr_sort`, sorting by the start of the period. -/
def tsequencearrSort {V B : Type} (seqs : List (TSequence V B)) : List (TSequence V B) :=
  seqs.insertionSort fun seq1 seq2 =>
    seq1.period.lower < seq2.period.lower ∨
      (seq1.period.lower = seq2.period.lower ∧ (seq1.period.lowerInc || !seq2.period.lowerInc))

/-- The loop of `tsequence_min_value` and `tsequence_max_value` over the instants after
the first, keeping the value that `better` (`datum_lt` or `datum_gt`) prefers to the one
kept so far. -/
def tsequenceValueLoop {V : Type} (better : V → V → Bool) (result : V) : List (TInstant V) → V
  | [] => result
  | inst :: rest =>
    tsequenceValueLoop better (if better inst.value result then inst.value else result) rest

/-- The common body of `tsequence_min_value` and `tsequence_max_value`: the value read
off the box for `int4` and `float8` (`fromBox`), otherwise the value the loop keeps. -/
def tsequenceExtremeValue {V B : Type} (fromBox : Option V) (better : V → V → Bool)
    (seq : TSequence V B) : Option V :=
  match fromBox with
  | some value => some value
  | none => seq.instants.head?.map fun inst => tsequenceValueLoop better inst.value seq.instants.tail

/-- `tsequence_min_value`: for `int4` and `float8`, whose doubles `ofDouble` converts back,
the minimum of the box of values; for the other base types the least value by
`datum_lt`. -/
def tsequenceMinValue {V : Type} (ofDouble : Option (ℚ → V)) (lt : V → V → Bool)
    (seq : TSequence V TBox) : Option V :=
  tsequenceExtremeValue (ofDouble.map fun f => f seq.bbox.xmin) lt seq

/-- `tsequence_max_value`: for `int4` and `float8` the maximum of the box of values; for
the other base types the greatest value by `datum_gt`. -/
def tsequenceMaxValue {V : Type} (ofDouble : Option (ℚ → V)) (gt : V → V → Bool)
    (seq : TSequence V TBox) : Option V :=
  tsequenceExtremeValue (ofDouble.map fun f => f seq.bbox.xmax) gt seq

/-- The loop of `tsequence_min_instant`: the instant kept so far is replaced by the next
one whose value is less by `datum_lt`. -/
def tsequenceMinInstantLoop {V : Type} (lt : V → V → Bool) (min : TInstant V) :
    List (TInstant V) → TInstant V
  | [] => min
  | inst :: rest => tsequenceMinInstantLoop lt (if lt inst.value min.value then inst else min) rest

/-- `tsequence_min_instant`: the instant of the sequence with the least value, starting
from the first instant. -/
def tsequenceMinInstant {V B : Type} (lt : V → V → Bool) (seq : TSequence V B) :
    Option (TInstant V) :=
  seq.instants.head?.map fun inst => tsequenceMinInstantLoop lt inst seq.instants.tail

/-- Modelled from the spec: `datumarr_sort`, the values in increasing order by
`datum_lt`. -/
def datumarrSort {V : Type} (lt : V → V → Bool) (values : List V) : List V :=
  values.insertionSort fun a b => !lt b a

/-- Modelled from the spec: `datumarr_remove_duplicates` of a sorted array, which keeps a
value when it differs from the last value kept. -/
def datumarrRemoveDuplicates {V : Type} [DecidableEq V] (values : List V) : List V :=
  values.destutter (· ≠ ·)

/-- `tsequence_values1`: the values of the instants, sorted and without repeats when there
are more than one. -/
def tsequenceValues1 {V B : Type} [DecidableEq V] (lt : V → V → Bool) (seq : TSequence V B) :
    List V :=
  let values := seq.instants.map TInstant.value
  if values.length > 1 then datumarrRemoveDuplicates (datumarrSort lt values) else values

variable {B : Type}

/-- `tnumberseq_at_range1`: the part of the segment `inst1 -> inst2` whose values
are in the range. -/
def tnumberseqAtRange1 (ε : ℚ) (bx : BBoxOps ℚ B) (inst1 inst2 : TInstant ℚ)
    (lowerIncl upperIncl linear : Bool) (range : FloatRange) :
    Except String (Option (TSequence ℚ B)) :=
  let bt := tfloat ε
  let value1 := inst1.value
  let value2 := inst2.value
  if !linear ∨ value1 = value2 then
    if !rangeContainsElem range value1 then pure none
    else some <$> tsequenceMake bt bx
      [inst1, if linear then inst2 else ⟨value1, inst2.t⟩] lowerIncl (linear && upperIncl) linear
      false
  else
    let increasing := value1 < value2
    let valuerange : FloatRange := if increasing then ⟨value1, value2, lowerIncl, upperIncl⟩
      else ⟨value2, value1, upperIncl, lowerIncl⟩
    let intersect := rangeIntersect valuerange range
    if intersect.isEmpty then pure none
    else
      let lower := intersect.lower
      let upper := intersect.upper
      let lowerInc2 := intersect.lowerInc
      let upperInc2 := intersect.upperInc
      if lower = upper then
        some <$> tsequenceMake bt bx [⟨lower, if lower = value1 then inst1.t else inst2.t⟩]
          true true linear false
      else
        let min := min value1 value2
        let max := max value1 value2
        let t1 := if min ≤ lower ∧ lower ≤ max then tnumberseqIntersectionValue ε inst1 inst2 lower
          else none
        let t2 := if lower ≠ upper ∧ min ≤ upper ∧ upper ≤ max then
            tnumberseqIntersectionValue ε inst1 inst2 upper else none
        let at1 := tsequenceAtTimestamp1 bt inst1 inst2 linear
        match t1, t2 with
        | none, none => some <$> tsequenceMake bt bx [inst1, inst2] lowerIncl upperIncl linear false
        | some t1, some t2 =>
          some <$> tsequenceMake bt bx [at1 (Min.min t1 t2), at1 (Max.max t1 t2)] lowerInc2
            upperInc2 linear false
        | some t1, none =>
          if increasing then
            some <$> tsequenceMake bt bx [at1 t1, inst2] lowerInc2 upperIncl linear false
          else some <$> tsequenceMake bt bx [inst1, at1 t1] lowerIncl upperInc2 linear false
        | none, some t2 =>
          if increasing then
            some <$> tsequenceMake bt bx [inst1, at1 t2] lowerIncl upperInc2 linear false
          else some <$> tsequenceMake bt bx [at1 t2, inst2] lowerInc2 upperIncl linear false

/-- The inner loop of `tnumberseq_restrict_ranges1` over the ranges, for one segment. -/
def tnumberseqAtRangesSegment (ε : ℚ) (bx : BBoxOps ℚ B) (inst1 inst2 : TInstant ℚ)
    (lowerInc upperInc linear : Bool) : List FloatRange → Except String (List (TSequence ℚ B))
  | [] => pure []
  | range :: ranges => do
    let seq1 ← tnumberseqAtRange1 ε bx inst1 inst2 lowerInc upperInc linear range
    let seqs ← tnumberseqAtRangesSegment ε bx inst1 inst2 lowerInc upperInc linear ranges
    pure (seq1.toList ++ seqs)

/-- The segment loop of `tnumberseq_restrict_range1` and `tnumberseq_restrict_ranges1`
for `REST_AT`, restricting each segment to every range in turn. -/
def tnumberseqAtRangesLoop (ε : ℚ) (bx : BBoxOps ℚ B) (linear upperInc : Bool)
    (ranges : List FloatRange) : Bool → TInstant ℚ → List (TInstant ℚ) →
    Except String (List (TSequence ℚ B))
  | _, _, [] => pure []
  | lowerInc, inst1, inst2 :: rest => do
    let upperInc1 := if rest = [] then upperInc else false
    let seqs1 ← tnumberseqAtRangesSegment ε bx inst1 inst2 lowerInc upperInc1 linear ranges
    let seqs ← tnumberseqAtRangesLoop ε bx linear upperInc ranges true inst2 rest
    pure (seqs1 ++ seqs)

/-- The instant added by the `REST_AT` branches for a step sequence with an
inclusive upper bound, when `range` contains its last value. -/
def tnumberseqAtRangeLast (ε : ℚ) (bx : BBoxOps ℚ B) (seq : TSequence ℚ B)
    (range : FloatRange) : Except String (List (TSequence ℚ B)) :=
  match seq.instants.getLast? with
  | some last =>
    if !seq.linear ∧ seq.period.upperInc ∧ rangeContainsElem range last.value then do
      let seq1 ← tsequenceMake (tfloat ε) bx [last] true true false false
      pure [seq1]
    else pure []
  | none => pure []

/-- Modelled from the spec: `tnumberinst_restrict_range`. -/
def tnumberinstRestrictRange (inst : TInstant ℚ) (range : FloatRange) (atfunc : Bool) : Bool :=
  rangeContainsElem range inst.value == atfunc

/-- `tnumberseq_restrict_range1`. -/
def tnumberseqRestrictRange1 (ε : ℚ) (bx : BBoxOps ℚ TBox) (seq : TSequence ℚ TBox)
    (range : FloatRange) (atfunc : Bool) : Except String (List (TSequence ℚ TBox)) :=
  if !overlapsTboxRange seq.bbox range then pure (if atfunc then [] else [tsequenceCopy seq])
  else match seq.instants with
    | [inst] => pure (if tnumberinstRestrictRange inst range atfunc then [tsequenceCopy seq] else [])
    | inst1 :: rest =>
      if atfunc then do
        let seqs ← tnumberseqAtRangesLoop ε bx seq.linear seq.period.upperInc [range]
          seq.period.lowerInc inst1 rest
        let last ← tnumberseqAtRangeLast ε bx seq range
        pure (seqs ++ last)
      else do
        let seqs ← tnumberseqRestrictRange1 ε bx seq range true
        if seqs = [] then pure [tsequenceCopy seq]
        else match minusPeriodPeriodset seq.period (tsequencesetGetTime seqs) with
          | [] => pure []
          | ps2 => tsequenceAtPeriodset (tfloat ε) bx seq ps2
    | [] => pure []
termination_by (!atfunc).toNat
decreasing_by simp_all

/-- Modelled from the spec: `tnumberinst_restrict_ranges`. -/
def tnumberinstRestrictRanges (inst : TInstant ℚ) (ranges : List FloatRange) (atfunc : Bool) :
    Bool :=
  ranges.any (fun range => rangeContainsElem range inst.value) == atfunc

/-- `tnumberseq_restrict_ranges1` over a normalized array of ranges. -/
def tnumberseqRestrictRanges1 (ε : ℚ) (bx : BBoxOps ℚ TBox) (seq : TSequence ℚ TBox)
    (normranges : List FloatRange) (atfunc : Bool) : Except String (List (TSequence ℚ TBox)) :=
  match seq.instants with
  | [inst] => pure (if tnumberinstRestrictRanges inst normranges atfunc then [tsequenceCopy seq] else [])
  | inst1 :: rest =>
    if atfunc then do
      let seqs ← tnumberseqAtRangesLoop ε bx seq.linear seq.period.upperInc normranges
        seq.period.lowerInc inst1 rest
      let last ← match normranges.getLast? with
        | some range => tnumberseqAtRangeLast ε bx seq range
        | none => pure []
      let seqs := seqs ++ last
      pure (if seqs.length > 1 then tsequencearrSort seqs else seqs)
    else do
      let seqs ← tnumberseqRestrictRanges1 ε bx seq normranges true
      if seqs = [] then pure [tsequenceCopy seq]
      else match minusPeriodPeriodset seq.period (tsequencesetGetTime seqs) with
        | [] => pure []
        | ps2 => tsequenceAtPeriodset (tfloat ε) bx seq ps2
  | [] => pure []
termination_by (!atfunc).toNat
decreasing_by simp_all

end TemporalSequence
