import TemporalSequence.Construction

/-!
# Restriction to a value

`tsequence_at_value` restricts each segment of a sequence to the timestamps where it
takes a value: a constant segment is kept whole, a step segment keeps its start value
up to its end, and a linear segment gives the instant of an end taking the value or
of the crossing that `tlinearseq_intersection_value` computes. `tsequence_minus_value`
keeps the rest: with linear interpolation segment by segment, with step interpolation
by cutting the instant array at each instant taking the value.
-/

namespace TemporalSequence

variable {V B : Type} [DecidableEq V]

/-- `tsequence_at_value1`: the part of the segment `inst1 -> inst2` where it takes
`value`. -/
def tsequenceAtValue1 (bt : BaseType V) (bx : BBoxOps V B) (inst1 inst2 : TInstant V)
    (linear lowerInc upperInc : Bool) (value : V) : Except String (Option (TSequence V B)) :=
  let value1 := inst1.value
  let value2 := inst2.value
  if value1 = value2 then
    if value1 ≠ value then pure none
    else some <$> tsequenceMake bt bx [inst1, inst2] lowerInc upperInc linear false
  else if !linear then
    if value1 = value then
      some <$> tsequenceMake bt bx [inst1, ⟨value1, inst2.t⟩] lowerInc false linear false
    else if upperInc ∧ value = value2 then
      some <$> tsequenceMake bt bx [inst2] true true linear false
    else pure none
  else if value1 = value then
    if !lowerInc then pure none
    else some <$> tsequenceMake bt bx [inst1] true true linear false
  else if value2 = value then
    if !upperInc then pure none
    else some <$> tsequenceMake bt bx [inst2] true true linear false
  else match tlinearseqIntersectionValue bt inst1 inst2 value with
    | none => pure none
    | some (projvalue, t) => some <$> tsequenceMake bt bx [⟨projvalue, t⟩] true true linear false

/-- The segment loop of `tsequence_at_value` from `inst1`, the lower bound flag of the
segment being `lowerInc`. -/
def tsequenceAtValueLoop (bt : BaseType V) (bx : BBoxOps V B) (linear upperInc : Bool)
    (value : V) : Bool → TInstant V → List (TInstant V) → Except String (List (TSequence V B))
  | _, _, [] => pure []
  | lowerInc, inst1, inst2 :: rest => do
    let seq1 ← tsequenceAtValue1 bt bx inst1 inst2 linear lowerInc
      (if rest = [] then upperInc else false) value
    let seqs ← tsequenceAtValueLoop bt bx linear upperInc value true inst2 rest
    pure (seq1.toList ++ seqs)

/-- `tsequence_at_value`. -/
def tsequenceAtValue (bt : BaseType V) (bx : BBoxOps V B) (seq : TSequence V B) (value : V) :
    Except String (List (TSequence V B)) :=
  match seq.instants with
  | [inst] => pure (if inst.value ≠ value then [] else [tsequenceCopy seq])
  | inst1 :: rest =>
    if !bx.restrictValue seq.bbox value then pure []
    else tsequenceAtValueLoop bt bx seq.linear seq.period.upperInc value seq.period.lowerInc
      inst1 rest
  | [] => pure []

/-- `tlinearseq_minus_value1`: the parts of the linear segment `inst1 -> inst2` where it
does not take `value`. -/
def tlinearseqMinusValue1 (bt : BaseType V) (bx : BBoxOps V B) (inst1 inst2 : TInstant V)
    (lowerInc upperInc : Bool) (value : V) : Except String (List (TSequence V B)) :=
  let value1 := inst1.value
  let value2 := inst2.value
  if value1 = value2 then
    if value1 = value then pure []
    else (fun seq => [seq]) <$> tsequenceMake bt bx [inst1, inst2] lowerInc upperInc true false
  else if value1 = value then
    (fun seq => [seq]) <$> tsequenceMake bt bx [inst1, inst2] false upperInc true false
  else if value2 = value then
    (fun seq => [seq]) <$> tsequenceMake bt bx [inst1, inst2] lowerInc false true false
  else match tlinearseqIntersectionValue bt inst1 inst2 value with
    | none => (fun seq => [seq]) <$> tsequenceMake bt bx [inst1, inst2] lowerInc upperInc true false
    | some (projvalue, t) => do
      let seq1 ← tsequenceMake bt bx [inst1, ⟨projvalue, t⟩] lowerInc false true false
      let seq2 ← tsequenceMake bt bx [⟨projvalue, t⟩, inst2] false upperInc true false
      pure [seq1, seq2]

/-- The segment loop of `tsequence_minus_value` for linear interpolation. -/
def tlinearseqMinusValueLoop (bt : BaseType V) (bx : BBoxOps V B) (upperInc : Bool)
    (value : V) : Bool → TInstant V → List (TInstant V) → Except String (List (TSequence V B))
  | _, _, [] => pure []
  | lowerInc, inst1, inst2 :: rest => do
    let seqs1 ← tlinearseqMinusValue1 bt bx inst1 inst2 lowerInc
      (if rest = [] then upperInc else false) value
    let seqs ← tlinearseqMinusValueLoop bt bx upperInc value true inst2 rest
    pure (seqs1 ++ seqs)

/-- The instant loop of `tsequence_minus_value` for step interpolation: `instants`
holds the instants kept since the last one taking `value`, and `lowerInc` is the
lower bound flag of the sequence they start. -/
def tstepseqMinusValueLoop (bt : BaseType V) (bx : BBoxOps V B) (upperInc : Bool)
    (value : V) : List (TInstant V) → Bool → List (TInstant V) →
    Except String (List (TSequence V B))
  | instants, lowerInc, [] =>
    if instants = [] then pure []
    else (fun seq => [seq]) <$> tsequenceMake bt bx instants lowerInc upperInc false false
  | instants, lowerInc, inst :: rest =>
    if inst.value = value then
      match instants.getLast? with
      | some last => do
        let seq1 ← tsequenceMake bt bx (instants ++ [⟨last.value, inst.t⟩]) lowerInc false
          false false
        let seqs ← tstepseqMinusValueLoop bt bx upperInc value [] true rest
        pure (seq1 :: seqs)
      | none => tstepseqMinusValueLoop bt bx upperInc value [] true rest
    else tstepseqMinusValueLoop bt bx upperInc value (instants ++ [inst]) lowerInc rest

/-- `tsequence_minus_value`. -/
def tsequenceMinusValue (bt : BaseType V) (bx : BBoxOps V B) (seq : TSequence V B) (value : V) :
    Except String (List (TSequence V B)) :=
  match seq.instants with
  | [inst] => pure (if inst.value = value then [] else [tsequenceCopy seq])
  | inst1 :: rest =>
    if !bx.restrictValue seq.bbox value then pure [tsequenceCopy seq]
    else if !seq.linear then
      tstepseqMinusValueLoop bt bx seq.period.upperInc value [] seq.period.lowerInc (inst1 :: rest)
    else tlinearseqMinusValueLoop bt bx seq.period.upperInc value seq.period.lowerInc inst1 rest
  | [] => pure []

end TemporalSequence
