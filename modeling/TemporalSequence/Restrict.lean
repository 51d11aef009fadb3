import TemporalSequence.Merge
import TemporalSequence.RestrictValue

/-!
# Restrictions returning sequence sets

`tsequence_restrict_value`, `tsequence_restrict_values`,
`tsequence_restrict_periodset` and the other functions of this module call the
restriction functions that fill an array of sequences and make a sequence set of it,
normalized or not. A sequence set is given
by its sequences, and the null result by no sequences; `tsequence_to_tsequenceset`
gives the set of the sequence alone. The sequence set functions of `tsequenceset.c`,
the box functions of `temporal_boxops.c` and the instant function of `tinstant.c` that
they call are modelled from their specification.
-/

namespace TemporalSequence

variable {V B : Type} [DecidableEq V]

/-- Modelled from the spec: the sequences of the sequence set that
`tsequenceset_make_free` makes from an array of sequences in time order, normalized
when `normalize` is set. -/
def tsequencesetMake (bt : BaseType V) (bx : BBoxOps V B) (sequences : List (TSequence V B))
    (normalize : Bool) : List (TSequence V B) :=
  if normalize then tsequencearrNormalize bt bx sequences else sequences

/-- `tsequence_restrict_value`: the part of the sequence where it takes `value`, or
the rest. -/
def tsequenceRestrictValue (bt : BaseType V) (bx : BBoxOps V B) (seq : TSequence V B) (value : V)
    (atfunc : Bool) : Except String (List (TSequence V B)) := do
  let sequences ← if atfunc then tsequenceAtValue bt bx seq value
    else tsequenceMinusValue bt bx seq value
  pure (tsequencesetMake bt bx sequences true)

/-- `tsequence_restrict_periodset` over the periods of a period set. -/
def tsequenceRestrictPeriodset (bt : BaseType V) (bx : BBoxOps V B) (seq : TSequence V B)
    (ps : List Period) (atfunc : Bool) : Except String (List (TSequence V B)) :=
  if !overlapsPeriodPeriod seq.period (periodsetBbox ps) then pure (if atfunc then [] else [seq])
  else match seq.instants with
    | [inst] =>
      pure (if containsPeriodsetTimestamp ps inst.t then (if atfunc then [seq] else [])
        else (if atfunc then [] else [seq]))
    | _ =>
      if atfunc then do
        let sequences ← tsequenceAtPeriodset bt bx seq ps
        pure (tsequencesetMake bt bx sequences true)
      else do
        let sequences ← tsequenceMinusPeriodset bt bx seq ps 0
        pure (tsequencesetMake bt bx sequences false)

/-! ## Restriction to an array of values -/

/-- Modelled from the spec: `temporal_bbox_restrict_values`, the values of the array
that the box may contain, in their order. -/
def temporalBboxRestrictValues (bx : BBoxOps V B) (box : B) (values : List V) : List V :=
  values.filter (bx.restrictValue box)

/-- Modelled from the spec: `tinstant_restrict_values`, whether the instant is kept:
its value is one of the values (`atfunc`), or none of them. -/
def tinstantRestrictValues (inst : TInstant V) (values : List V) (atfunc : Bool) : Bool :=
  decide (inst.value ∈ values) == atfunc

/-- The inner loop of `tsequence_at_values1` over the values, for one segment. -/
def tsequenceAtValuesSegment (bt : BaseType V) (bx : BBoxOps V B) (inst1 inst2 : TInstant V)
    (linear lowerInc upperInc : Bool) : List V → Except String (List (TSequence V B))
  | [] => pure []
  | value :: values => do
    let seq1 ← tsequenceAtValue1 bt bx inst1 inst2 linear lowerInc upperInc value
    let seqs ← tsequenceAtValuesSegment bt bx inst1 inst2 linear lowerInc upperInc values
    pure (seq1.toList ++ seqs)

/-- The segment loop of `tsequence_at_values1` from `inst1`, the lower bound flag of the
segment being `lowerInc`. -/
def tsequenceAtValuesLoop (bt : BaseType V) (bx : BBoxOps V B) (linear upperInc : Bool)
    (values : List V) : Bool → TInstant V → List (TInstant V) →
    Except String (List (TSequence V B))
  | _, _, [] => pure []
  | lowerInc, inst1, inst2 :: rest => do
    let seqs1 ← tsequenceAtValuesSegment bt bx inst1 inst2 linear lowerInc
      (if rest = [] then upperInc else false) values
    let seqs ← tsequenceAtValuesLoop bt bx linear upperInc values true inst2 rest
    pure (seqs1 ++ seqs)

/-- `tsequence_at_values1`, with the sequences it stores in `result`. -/
def tsequenceAtValues1 (bt : BaseType V) (bx : BBoxOps V B) (seq : TSequence V B)
    (values : List V) : Except String (List (TSequence V B)) :=
  match seq.instants with
  | [inst] => pure (if !tinstantRestrictValues inst values true then [] else [tsequenceCopy seq])
  | inst1 :: rest =>
    if temporalBboxRestrictValues bx seq.bbox values = [] then pure []
    else do
      let seqs ← tsequenceAtValuesLoop bt bx seq.linear seq.period.upperInc values
        seq.period.lowerInc inst1 rest
      pure (if seqs.length > 1 then tsequencearrSort seqs else seqs)
  | [] => pure []

/-- `tsequence_restrict_values`: the part of the sequence where it takes one of the
values (`atfunc`), or the rest, which is the sequence at the periods of its period that
the first part leaves. -/
def tsequenceRestrictValues (bt : BaseType V) (bx : BBoxOps V B) (seq : TSequence V B)
    (values : List V) (atfunc : Bool) : Except String (List (TSequence V B)) :=
  let values1 := temporalBboxRestrictValues bx seq.bbox values
  if values1 = [] then pure (if atfunc then [] else [seq])
  else do
    let sequences ← tsequenceAtValues1 bt bx seq values1
    let atresult := tsequencesetMake bt bx sequences true
    if atfunc then pure atresult
    else if sequences.isEmpty then pure [seq]
    else match minusPeriodPeriodset seq.period (tsequencesetGetTime atresult) with
      | [] => pure []
      | ps2 => tsequenceRestrictPeriodset bt bx seq ps2 true

/-! ## Sequence sets of the restriction functions -/

/-- `tsequence_minus_timestamp`: the set, not normalized, of the pieces of
`tsequence_minus_timestamp1`. -/
def tsequenceMinusTimestamp (bt : BaseType V) (bx : BBoxOps V B) (seq : TSequence V B) (t : ℤ) :
    Except String (List (TSequence V B)) := do
  let sequences ← tsequenceMinusTimestamp1 bt bx seq t
  pure (tsequencesetMake bt bx sequences false)

/-- `tsequence_minus_timestampset`: the normalized set of the pieces of
`tsequence_minus_timestampset1`. -/
def tsequenceMinusTimestampset (bt : BaseType V) (bx : BBoxOps V B) (seq : TSequence V B)
    (ts : TimestampSet) : Except String (List (TSequence V B)) := do
  let sequences ← tsequenceMinusTimestampset1 bt bx seq ts
  pure (tsequencesetMake bt bx sequences true)

/-- `tsequence_minus_period`: the set, not normalized, of the pieces of
`tsequence_minus_period1`. -/
def tsequenceMinusPeriod (bt : BaseType V) (bx : BBoxOps V B) (seq : TSequence V B) (p : Period) :
    Except String (List (TSequence V B)) := do
  let sequences ← tsequenceMinusPeriod1 bt bx seq p
  pure (tsequencesetMake bt bx sequences false)

/-- `tstepseq_to_linear`: the set, not normalized, of the sequences of
`tstepseq_to_linear1`. -/
def tstepseqToLinear (bt : BaseType V) (bx : BBoxOps V B) (seq : TSequence V B) :
    Except String (List (TSequence V B)) := do
  let sequences ← tstepseqToLinear1 bt bx seq
  pure (tsequencesetMake bt bx sequences false)

/-- `tnumberseq_restrict_range`: the normalized set of the pieces of
`tnumberseq_restrict_range1`. -/
def tnumberseqRestrictRange (ε : ℚ) (bx : BBoxOps ℚ TBox) (seq : TSequence ℚ TBox)
    (range : FloatRange) (atfunc : Bool) : Except String (List (TSequence ℚ TBox)) := do
  let sequences ← tnumberseqRestrictRange1 ε bx seq range atfunc
  pure (tsequencesetMake (tfloat ε) bx sequences true)

/-- `tnumberseq_restrict_ranges`: the normalized set of the pieces of
`tnumberseq_restrict_ranges1`. -/
def tnumberseqRestrictRanges (ε : ℚ) (bx : BBoxOps ℚ TBox) (seq : TSequence ℚ TBox)
    (normranges : List FloatRange) (atfunc : Bool) : Except String (List (TSequence ℚ TBox)) := do
  let sequences ← tnumberseqRestrictRanges1 ε bx seq normranges atfunc
  pure (tsequencesetMake (tfloat ε) bx sequences true)

/-- `tsequence_restrict_minmax`: the restriction to the least value (`min`) or the
greatest value of the sequence, read off the box for `int4` and `float8` (`ofDouble`)
and found by `datum_lt` or `datum_gt` otherwise. A sequence has a least value, so the
`none` branch is never taken on a sequence with instants. -/
def tsequenceRestrictMinmax (bt : BaseType V) (bx : BBoxOps V TBox) (ofDouble : Option (ℚ → V))
    (lt gt : V → V → Bool) (seq : TSequence V TBox) (min atfunc : Bool) :
    Except String (List (TSequence V TBox)) :=
  match if min then tsequenceMinValue ofDouble lt seq else tsequenceMaxValue ofDouble gt seq with
  | some minmax => tsequenceRestrictValue bt bx seq minmax atfunc
  | none => pure []

/-- `tsequence_restrict_max`: the restriction to the greatest value of the sequence. -/
def tsequenceRestrictMax (bt : BaseType V) (bx : BBoxOps V TBox) (ofDouble : Option (ℚ → V))
    (gt : V → V → Bool) (seq : TSequence V TBox) (atfunc : Bool) :
    Except String (List (TSequence V TBox)) :=
  match tsequenceMaxValue ofDouble gt seq with
  | some max => tsequenceRestrictValue bt bx seq max atfunc
  | none => pure []

end TemporalSequence
