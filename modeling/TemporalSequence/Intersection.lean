import TemporalSequence.RestrictTime

/-!
# Restriction to a timestamp set and temporal intersections

`tsequence_at_timestampset` gives the instants of the sequence at the timestamps of a
set, from the first timestamp that is not before the start of the sequence;
`tsequence_value_at_timestamp_inc` reads the value of the sequence at a timestamp
where the bounds of its period count as inclusive. The intersection functions give
the parts of two temporal values over their common timestamps: with an instant, with
an instant set (up to the first instant after the sequence) and with a sequence. The
intersects functions test the period of the sequence against a time value, and the
transformation functions make a sequence of an instant, of an instant set of one
instant, or of a sequence set of one sequence.

An instant set is given by its instants. Where a function returns an instant set made
by `tinstantset_make_free`, the model gives the instants it passes. The operations of
`timestampset.c`, `tinstant.c` and `tinstantset.c` that these functions call are
modelled from their specification.
-/

namespace TemporalSequence

variable {V B : Type} [DecidableEq V]

/-- Modelled from the spec: the location `timestampset_find_timestamp` returns, the
number of timestamps of the set before `t`. -/
def timestampsetFindTimestamp (ts : TimestampSet) (t : ℤ) : ℕ :=
  (ts.times.takeWhile (· < t)).length

/-- `tsequence_at_timestampset`, with the instants of the resulting instant set. -/
def tsequenceAtTimestampset (bt : BaseType V) (seq : TSequence V B) (ts : TimestampSet) :
    Option (List (TInstant V)) :=
  let p := timestampsetBbox ts
  if !overlapsPeriodPeriod seq.period p then none
  else match seq.instants with
    | [inst] => if !containsTimestampsetTimestamp ts inst.t then none else some [inst]
    | _ =>
      let loc := timestampsetFindTimestamp ts (max seq.period.lower p.lower)
      some ((ts.times.drop loc).filterMap (tsequenceAtTimestamp bt seq))

/-- Modelled from the spec: `tinstant_value_at_timestamp`, the value of the instant at
its own timestamp. -/
def tinstantValueAtTimestamp (inst : TInstant V) (t : ℤ) : Option V :=
  if inst.t = t then some inst.value else none

/-- `tsequence_value_at_timestamp_inc`. -/
def tsequenceValueAtTimestampInc (bt : BaseType V) (seq : TSequence V B) (t : ℤ) : Option V :=
  match seq.instants with
  | [] => none
  | inst :: rest =>
    if rest = [] ∨ inst.t = t then tinstantValueAtTimestamp inst t
    else match seq.instants.getLast? with
      | some last => if last.t = t then tinstantValueAtTimestamp last t
        else tsequenceValueAtTimestamp bt seq t
      | none => tsequenceValueAtTimestamp bt seq t

/-! ## Intersections -/

/-- `intersection_tsequence_tinstant`: the instant of the sequence at the timestamp of
`inst`, and a copy of it. -/
def intersectionTsequenceTinstant (bt : BaseType V) (seq : TSequence V B) (inst : TInstant V) :
    Option (TInstant V × TInstant V) :=
  match tsequenceAtTimestamp bt seq inst.t with
  | none => none
  | some inst1 => some (inst1, inst1)

/-- `intersection_tinstant_tsequence`. -/
def intersectionTinstantTsequence (bt : BaseType V) (inst : TInstant V) (seq : TSequence V B) :
    Option (TInstant V × TInstant V) :=
  (intersectionTsequenceTinstant bt seq inst).map Prod.swap

/-- An instant set `TInstantSet`: a non-empty array of instants with strictly increasing
timestamps. -/
structure TInstantSet (V : Type) where
  instants : List (TInstant V)
  nonempty : instants ≠ []
  increasing : instants.Chain' fun inst1 inst2 => inst1.t < inst2.t

/-- Modelled from the spec: `tinstantset_period`, the period from the first to the last
timestamp of the set. -/
def tinstantsetPeriod (ti : TInstantSet V) : Period :=
  ⟨firstT ti.instants, lastT ti.instants, true, true⟩

/-- The loop of `intersection_tsequence_tinstantset`: the instant of the sequence and the
instant of the set at each instant of the set in the period of the sequence, up to the
first instant after the period. -/
def intersectionTsequenceTinstantsetLoop (bt : BaseType V) (seq : TSequence V B) :
    List (TInstant V) → List (Option (TInstant V) × TInstant V)
  | [] => []
  | inst :: rest =>
    (if containsPeriodTimestamp seq.period inst.t then [(tsequenceAtTimestamp bt seq inst.t, inst)]
      else []) ++
    if seq.period.upper < inst.t then [] else intersectionTsequenceTinstantsetLoop bt seq rest

/-- `intersection_tsequence_tinstantset`, with the instants of the two instant sets. -/
def intersectionTsequenceTinstantset (bt : BaseType V) (seq : TSequence V B) (ti : TInstantSet V) :
    Option (List (Option (TInstant V)) × List (TInstant V)) :=
  if !overlapsPeriodPeriod seq.period (tinstantsetPeriod ti) then none
  else
    let found := intersectionTsequenceTinstantsetLoop bt seq ti.instants
    if found = [] then none else some (found.map Prod.fst, found.map Prod.snd)

/-- `intersection_tinstantset_tsequence`. -/
def intersectionTinstantsetTsequence (bt : BaseType V) (ti : TInstantSet V) (seq : TSequence V B) :
    Option (List (TInstant V) × List (Option (TInstant V))) :=
  (intersectionTsequenceTinstantset bt seq ti).map Prod.swap

/-- `intersection_tsequence_tsequence`: the two sequences restricted to the intersection
of their periods. -/
def intersectionTsequenceTsequence (bt : BaseType V) (bx : BBoxOps V B) (seq1 seq2 : TSequence V B) :
    Except String (Option (Option (TSequence V B) × Option (TSequence V B))) :=
  match intersectionPeriodPeriod seq1.period seq2.period with
  | none => pure none
  | some inter => do
    let inter1 ← tsequenceAtPeriod bt bx seq1 inter
    let inter2 ← tsequenceAtPeriod bt bx seq2 inter
    pure (some (inter1, inter2))

/-! ## Intersects functions -/

/-- `tsequence_intersects_timestamp`. -/
def tsequenceIntersectsTimestamp (seq : TSequence V B) (t : ℤ) : Bool :=
  containsPeriodTimestamp seq.period t

/-- `tsequence_intersects_timestampset`: some timestamp of the set intersects. -/
def tsequenceIntersectsTimestampset (seq : TSequence V B) (ts : TimestampSet) : Bool :=
  ts.times.any (tsequenceIntersectsTimestamp seq)

/-- `tsequence_intersects_period`. -/
def tsequenceIntersectsPeriod (seq : TSequence V B) (p : Period) : Bool :=
  overlapsPeriodPeriod seq.period p

/-- `tsequence_intersects_periodset`: some period of the set intersects. -/
def tsequenceIntersectsPeriodset (seq : TSequence V B) (ps : List Period) : Bool :=
  ps.any (tsequenceIntersectsPeriod seq)

/-! ## Transformations into a sequence -/

/-- `tinstant_to_tsequence`: the instantaneous sequence of the instant. -/
def tinstantToTsequence (bt : BaseType V) (bx : BBoxOps V B) (inst : TInstant V) (linear : Bool) :
    Except String (TSequence V B) :=
  tsequenceMake bt bx [inst] true true linear false

/-- `tinstantset_to_tsequence`: the instantaneous sequence of an instant set of one
instant. -/
def tinstantsetToTsequence (bt : BaseType V) (bx : BBoxOps V B) (ti : TInstantSet V)
    (linear : Bool) : Except String (TSequence V B) :=
  match ti.instants with
  | [inst] => tsequenceMake bt bx [inst] true true linear false
  | _ => throw "Cannot transform input to a temporal sequence"

/-- `tsequenceset_to_tsequence`, on the sequences of the set: a copy of its only
sequence. -/
def tsequencesetToTsequence (seqs : List (TSequence V B)) : Except String (TSequence V B) :=
  match seqs with
  | [seq] => pure (tsequenceCopy seq)
  | _ => throw "Cannot transform input to a temporal sequence"

end TemporalSequence
