import TemporalSequence.Construction

/-!
# Search and evaluation at a timestamp

`tsequence_find_timestamp` is a binary search over the `count - 1` segments of a
sequence; only the first segment honours the lower bound flag of the sequence and
only the last one its upper bound flag. The value and the instant at a timestamp
are read from the segment it finds.
-/

namespace TemporalSequence

variable {V B : Type} [DecidableEq V]

/-- The loop of `tsequence_find_timestamp` over the segment indices `[first, last]`. -/
def tsequenceFindTimestampLoop (instants : List (TInstant V)) (lowerInc upperInc : Bool)
    (t : ℤ) (first last : ℤ) : ℤ :=
  if first ≤ last then
    let middle := (first + last) / 2
    match instants[middle.toNat]?, instants[middle.toNat + 1]? with
    | some inst1, some inst2 =>
      let lowerInc1 := if middle = 0 then lowerInc else true
      let upperInc1 := if middle = instants.length - 2 then upperInc else false
      if (inst1.t < t ∧ t < inst2.t) ∨ (lowerInc1 ∧ inst1.t = t) ∨ (upperInc1 ∧ inst2.t = t) then
        middle
      else if t ≤ inst1.t then tsequenceFindTimestampLoop instants lowerInc upperInc t first (middle - 1)
      else tsequenceFindTimestampLoop instants lowerInc upperInc t (middle + 1) last
    | _, _ => -1
  else -1
termination_by (last + 1 - first).toNat
decreasing_by all_goals omega

/-- `tsequence_find_timestamp`: the index of the segment containing `t`, or `-1`. -/
def tsequenceFindTimestamp (seq : TSequence V B) (t : ℤ) : ℤ :=
  tsequenceFindTimestampLoop seq.instants seq.period.lowerInc seq.period.upperInc t 0
    (seq.instants.length - 2)

/-- The two instants of the segment of index `n`. -/
def segmentAt (seq : TSequence V B) (n : ℤ) : Option (TInstant V × TInstant V) :=
  if n < 0 then none
  else match seq.instants[n.toNat]?, seq.instants[n.toNat + 1]? with
    | some inst1, some inst2 => some (inst1, inst2)
    | _, _ => none

/-- `tsequence_value_at_timestamp`. -/
def tsequenceValueAtTimestamp (bt : BaseType V) (seq : TSequence V B) (t : ℤ) : Option V :=
  if !containsPeriodTimestamp seq.period t then none
  else match seq.instants with
    | [inst] => some inst.value
    | _ => (segmentAt seq (tsequenceFindTimestamp seq t)).map fun s =>
      tsequenceValueAtTimestamp1 bt s.1 s.2 seq.linear t

/-- `tsequence_at_timestamp`. -/
def tsequenceAtTimestamp (bt : BaseType V) (seq : TSequence V B) (t : ℤ) : Option (TInstant V) :=
  if !containsPeriodTimestamp seq.period t then none
  else match seq.instants with
    | [inst] => some inst
    | _ => (segmentAt seq (tsequenceFindTimestamp seq t)).map fun s =>
      tsequenceAtTimestamp1 bt s.1 s.2 seq.linear t

end TemporalSequence
