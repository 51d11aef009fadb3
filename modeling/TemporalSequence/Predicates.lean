import TemporalSequence.TNumber

/-!
# Ever and always comparisons, and the range of a temporal float

The ever/always comparison operators of `tsequence.c` and `tfloatseq_range`. Each
operator first asks a box test of `temporal_boxops.c` whether the answer may be
positive, then scans the instants (step interpolation, or a single instant) or the
segments (linear interpolation) of the sequence. The box tests are not part of the
source and are parameters of the model.
-/

namespace TemporalSequence

variable {V B : Type}

/-- The box tests of `temporal_boxops.c` that the ever/always operators call on the
box of the sequence and the base value. -/
structure BBoxTests (V B : Type) where
  /-- `temporal_bbox_ever_eq`. -/
  everEq : B → V → Bool
  /-- `temporal_bbox_always_eq`. -/
  alwaysEq : B → V → Bool
  /-- `temporal_bbox_ever_lt_le`. -/
  everLtLe : B → V → Bool
  /-- `temporal_bbox_always_lt_le`. -/
  alwaysLtLe : B → V → Bool
  /-- `numeric_base_type(valuetypid) || point_base_type(valuetypid)`. -/
  numericOrPoint : Bool
  /-- `numeric_base_type(valuetypid)`. -/
  numeric : Bool

/-- The loop of the linear branch of `tsequence_ever_eq` and `tsequence_ever_le` over
the segments `x1 -> x2`, the lower bound inclusive after the first segment and the
upper bound exclusive before the last: whether one segment satisfies `p`. -/
def segmentsEver {α : Type} (p : α → α → Bool → Bool → Bool) (upperInc : Bool) :
    α → Bool → List α → Bool
  | _, _, [] => false
  | x1, lowerInc, x2 :: rest =>
    p x1 x2 lowerInc (if rest.isEmpty then upperInc else false) ||
      segmentsEver p upperInc x2 true rest

/-- The loop of the linear branch of `tsequence_always_lt`: whether every segment
satisfies `p`. -/
def segmentsAlways {α : Type} (p : α → α → Bool → Bool → Bool) (upperInc : Bool) :
    α → Bool → List α → Bool
  | _, _, [] => true
  | x1, lowerInc, x2 :: rest =>
    p x1 x2 lowerInc (if rest.isEmpty then upperInc else false) &&
      segmentsAlways p upperInc x2 true rest

section Eq

variable [DecidableEq V]

/-- `tlinearseq_ever_eq1`: whether the linear segment `inst1 -> inst2` takes `value`. -/
def tlinearseqEverEq1 (bt : BaseType V) (inst1 inst2 : TInstant V) (lowerInc upperInc : Bool)
    (value : V) : Bool :=
  if inst1.value = inst2.value ∧ inst1.value = value then true
  else if inst1.value = value then lowerInc
  else if inst2.value = value then upperInc
  else (bt.intersectionValue inst1 inst2 value).isSome

/-- `tsequence_ever_eq`. -/
def tsequenceEverEq (bt : BaseType V) (tests : BBoxTests V B) (seq : TSequence V B) (value : V) :
    Bool :=
  if !tests.everEq seq.bbox value then false
  else if !seq.linear || seq.instants.length = 1 then
    seq.instants.any fun inst => inst.value = value
  else match seq.instants with
    | [] => false
    | inst1 :: rest =>
      segmentsEver (fun inst1 inst2 lowerInc upperInc =>
        tlinearseqEverEq1 bt inst1 inst2 lowerInc upperInc value)
        seq.period.upperInc inst1 seq.period.lowerInc rest

/-- `tsequence_always_eq`: for numbers and points the box test decides; otherwise a
normalized sequence of more than two instants is not constant. -/
def tsequenceAlwaysEq (tests : BBoxTests V B) (seq : TSequence V B) (value : V) : Bool :=
  if !tests.alwaysEq seq.bbox value then false
  else if tests.numericOrPoint then true
  else if 2 < seq.instants.length then false
  else seq.instants.all fun inst => inst.value = value

end Eq

section Order

variable [LinearOrder V]

/-- `tlinearseq_ever_le1`: whether the linear segment `value1 -> value2` is ever at
most `value`. -/
def tlinearseqEverLe1 (value1 value2 : V) (lowerInc upperInc : Bool) (value : V) : Bool :=
  if value1 = value2 then value1 ≤ value
  else if value1 < value2 then value1 < value || (lowerInc && value1 = value)
  else value2 < value || (upperInc && value2 = value)

/-- `tlinearseq_always_lt1`: whether the linear segment `value1 -> value2` is always
below `value`. The constant segment compares its value with itself. -/
def tlinearseqAlwaysLt1 (value1 value2 : V) (lowerInc upperInc : Bool) (value : V) : Bool :=
  if value1 = value2 then value1 < value1
  else if value1 < value2 then value2 < value || (!upperInc && value = value2)
  else value1 < value || (!lowerInc && value1 = value)

/-- `tsequence_ever_lt`: some instant is below `value`, whatever the interpolation. -/
def tsequenceEverLt (tests : BBoxTests V B) (seq : TSequence V B) (value : V) : Bool :=
  if !tests.everLtLe seq.bbox value then false
  else seq.instants.any fun inst => inst.value < value

/-- `tsequence_ever_le`. -/
def tsequenceEverLe (tests : BBoxTests V B) (seq : TSequence V B) (value : V) : Bool :=
  if !tests.everLtLe seq.bbox value then false
  else if !seq.linear || seq.instants.length = 1 then
    seq.instants.any fun inst => inst.value ≤ value
  else match seq.instants with
    | [] => false
    | inst1 :: rest =>
      segmentsEver (fun value1 value2 lowerInc upperInc =>
        tlinearseqEverLe1 value1 value2 lowerInc upperInc value)
        seq.period.upperInc inst1.value seq.period.lowerInc (rest.map TInstant.value)

/-- `tsequence_always_lt`. -/
def tsequenceAlwaysLt (tests : BBoxTests V B) (seq : TSequence V B) (value : V) : Bool :=
  if !tests.alwaysLtLe seq.bbox value then false
  else if !seq.linear || seq.instants.length = 1 then
    seq.instants.all fun inst => inst.value < value
  else match seq.instants with
    | [] => true
    | inst1 :: rest =>
      segmentsAlways (fun value1 value2 lowerInc upperInc =>
        tlinearseqAlwaysLt1 value1 value2 lowerInc upperInc value)
        seq.period.upperInc inst1.value seq.period.lowerInc (rest.map TInstant.value)

/-- `tsequence_always_le`: for numbers the box test decides; the other ordered base
types have step interpolation. -/
def tsequenceAlwaysLe (tests : BBoxTests V B) (seq : TSequence V B) (value : V) : Bool :=
  if !tests.alwaysLtLe seq.bbox value then false
  else if tests.numeric then true
  else seq.instants.all fun inst => inst.value ≤ value

end Order

/-! ## The range of a linear temporal float -/

/-- The loop of `tfloatseq_range` over the values of the inner instants, which sets
the inclusivity of the extremes they reach. -/
def tfloatseqRangeLoop (min max : ℚ) : List ℚ → Bool → Bool → Bool × Bool
  | [], minInc, maxInc => (minInc, maxInc)
  | value :: rest, minInc, maxInc =>
    let minInc := minInc || min = value
    let maxInc := maxInc || max = value
    if minInc && maxInc then (minInc, maxInc) else tfloatseqRangeLoop min max rest minInc maxInc

/-- `tfloatseq_range`: the extremes of the box, each inclusive when it is reached at
an inclusive end or at an inner instant; the ends are read in the order of their
values. -/
def tfloatseqRange (seq : TSequence ℚ TBox) : FloatRange :=
  let min := seq.bbox.xmin
  let max := seq.bbox.xmax
  if min = max then ⟨min, max, true, true⟩ else
  let start := (seq.instants.head?.map TInstant.value).getD 0
  let finish := (seq.instants.getLast?.map TInstant.value).getD 0
  let (lower, lowerInc, upper, upperInc) :=
    if start < finish then (start, seq.period.lowerInc, finish, seq.period.upperInc)
    else (finish, seq.period.upperInc, start, seq.period.lowerInc)
  let minInc := min < lower || (min = lower && lowerInc)
  let maxInc := max > upper || (max = upper && upperInc)
  let incs := if !minInc || !maxInc then
      tfloatseqRangeLoop min max ((seq.instants.drop 1).dropLast.map TInstant.value) minInc maxInc
    else (minInc, maxInc)
  ⟨min, max, incs.1, incs.2⟩

/-- `tfloatseq_ranges1`: with linear interpolation the range of `tfloatseq_range`, with
step interpolation the closed range `[v, v]` of each value of `tsequence_values1`. -/
def tfloatseqRanges1 (seq : TSequence ℚ TBox) : List FloatRange :=
  if seq.linear then [tfloatseqRange seq]
  else (tsequenceValues1 (fun a b => decide (a < b)) seq).map fun value => ⟨value, value, true, true⟩

end TemporalSequence
