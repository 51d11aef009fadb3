import TemporalSequence.Search

/-!
# Restriction to time

The restriction of a sequence to (the complement of) a timestamp, a timestamp set,
a period and a period set. The operations of `timestampset.c`, `period.c` and
`periodset.c` that these functions call are modelled from their specification.
-/

namespace TemporalSequence

/-- A timestamp set `TimestampSet`: a non-empty list of strictly increasing
timestamps. -/
structure TimestampSet where
  times : List ℤ
  nonempty : times ≠ []
  increasing : times.Chain' (· < ·)

/-- Modelled from the spec: `timestampset_bbox`, the period from the first to the
last timestamp of the set. -/
def timestampsetBbox (ts : TimestampSet) : Period :=
  ⟨(ts.times.head?).getD 0, (ts.times.getLast?).getD 0, true, true⟩

/-- Modelled from the spec: `contains_timestampset_timestamp_internal`. -/
def containsTimestampsetTimestamp (ts : TimestampSet) (t : ℤ) : Bool :=
  ts.times.contains t

/-- Modelled from the spec: `minus_period_period_internal`, the part of `p1` before
`p2` and the part after it; the period itself when they do not overlap. -/
def minusPeriodPeriod (p1 p2 : Period) : List Period :=
  if !overlapsPeriodPeriod p1 p2 then [p1]
  else
    (if p1.lower < p2.lower ∨ (p1.lower = p2.lower ∧ p1.lowerInc ∧ !p2.lowerInc) then
      [⟨p1.lower, p2.lower, p1.lowerInc, !p2.lowerInc⟩] else []) ++
    (if p2.upper < p1.upper ∨ (p2.upper = p1.upper ∧ p1.upperInc ∧ !p2.upperInc) then
      [⟨p2.upper, p1.upper, !p2.upperInc, p1.upperInc⟩] else [])

/-- Modelled from the spec: `minus_period_periodset_internal` over the periods of a
period set in time order. -/
def minusPeriodPeriodset (p : Period) (ps : List Period) : List Period :=
  ps.foldl (fun acc q => acc.flatMap fun p1 => minusPeriodPeriod p1 q) [p]

/-- Modelled from the spec: `periodset_bbox`, the period from the start of the
first period to the end of the last one. -/
def periodsetBbox (ps : List Period) : Period :=
  match ps.head?, ps.getLast? with
  | some first, some last => ⟨first.lower, last.upper, first.lowerInc, last.upperInc⟩
  | _, _ => ⟨0, 0, false, false⟩

/-- Modelled from the spec: `contains_periodset_timestamp_internal`. -/
def containsPeriodsetTimestamp (ps : List Period) (t : ℤ) : Bool :=
  ps.any fun p => containsPeriodTimestamp p t

/-- Modelled from the spec: the location returned by `periodset_find_timestamp`,
the index of the first period that does not end before `t`. -/
def periodsetFindTimestamp (ps : List Period) (t : ℤ) : ℕ :=
  (ps.takeWhile fun p => p.upper < t || (p.upper == t && !p.upperInc)).length

variable {V B : Type} [DecidableEq V]

/-- `tsequence_minus_timestamp1`. -/
def tsequenceMinusTimestamp1 (bt : BaseType V) (bx : BBoxOps V B) (seq : TSequence V B)
    (t : ℤ) : Except String (List (TSequence V B)) := do
  if !containsPeriodTimestamp seq.period t then return [tsequenceCopy seq]
  if seq.instants.length = 1 then return []
  let n := tsequenceFindTimestamp seq t
  match segmentAt seq n with
  | none => return []
  | some (inst1, inst2) =>
    let before := seq.instants.take n.toNat
    let first ← if n ≠ 0 ∨ firstT seq.instants < t then do
        let instants :=
          if inst1.t = t then
            before ++ [if seq.linear then inst1 else ⟨(before.getLast?.getD inst1).value, t⟩]
          else before ++ [inst1, if seq.linear then tsequenceAtTimestamp1 bt inst1 inst2 true t
            else ⟨inst1.value, t⟩]
        let seq1 ← tsequenceMake bt bx instants seq.period.lowerInc false seq.linear false
        pure [seq1]
      else pure []
    let second ← if t < inst2.t then do
        let seq2 ← tsequenceMake bt bx (tsequenceAtTimestamp1 bt inst1 inst2 seq.linear t ::
          seq.instants.drop (n.toNat + 1)) false seq.period.upperInc seq.linear false
        pure [seq2]
      else pure []
    pure (first ++ second)

/-- The loop of `tsequence_minus_timestampset1`: `init ++ [last]` are the instants of
the sequence under construction, `insts` the instants and `times` the timestamps
not yet visited. -/
def tsequenceMinusTimestampsetLoop (bt : BaseType V) (bx : BBoxOps V B) (linear upperInc : Bool)
    (init : List (TInstant V)) (last : TInstant V) (lowerInc : Bool) :
    List (TInstant V) → List ℤ → Except String (List (TSequence V B))
  | inst :: insts, t :: times =>
    if inst.t < t then
      tsequenceMinusTimestampsetLoop bt bx linear upperInc (init ++ [last]) inst lowerInc
        insts (t :: times)
    else if inst.t = t then do
      let seq1 ← tsequenceMake bt bx (init ++ [last, if linear then inst else ⟨last.value, t⟩])
        lowerInc false linear false
      let seqs ← tsequenceMinusTimestampsetLoop bt bx linear upperInc [] inst false insts times
      pure (seq1 :: seqs)
    else if last.t < t then do
      let cut := if linear then tsequenceAtTimestamp1 bt last inst true t else ⟨last.value, t⟩
      let seq1 ← tsequenceMake bt bx (init ++ [last, cut]) lowerInc false linear false
      let seqs ← tsequenceMinusTimestampsetLoop bt bx linear upperInc [] cut false
        (inst :: insts) times
      pure (seq1 :: seqs)
    else
      tsequenceMinusTimestampsetLoop bt bx linear upperInc init last false (inst :: insts) times
  | [], _ => pure []
  | insts, [] => do
    let seq1 ← tsequenceMake bt bx (init ++ last :: insts) false upperInc linear false
    pure [seq1]
termination_by insts times => insts.length + times.length

/-- `tsequence_minus_timestampset1`. -/
def tsequenceMinusTimestampset1 (bt : BaseType V) (bx : BBoxOps V B) (seq : TSequence V B)
    (ts : TimestampSet) : Except String (List (TSequence V B)) :=
  if !overlapsPeriodPeriod seq.period (timestampsetBbox ts) then pure [tsequenceCopy seq]
  else match seq.instants, ts.times with
    | [inst], _ =>
      if containsTimestampsetTimestamp ts inst.t then pure [] else pure [tsequenceCopy seq]
    | _, [t] => tsequenceMinusTimestamp1 bt bx seq t
    | inst :: insts, times =>
      tsequenceMinusTimestampsetLoop bt bx seq.linear seq.period.upperInc [] inst
        seq.period.lowerInc insts times
    | [], _ => pure []

/-- The loop of `tsequence_at_period`: the instants strictly inside the period, and
the segment in which the period ends. -/
def tsequenceAtPeriodLoop (inter : Period) :
    TInstant V → TInstant V → List (TInstant V) → List (TInstant V) × TInstant V × TInstant V
  | inst1, inst2, [] => ([], inst1, inst2)
  | inst1, inst2, inst :: rest =>
    if inst1.t ≤ inter.upper ∧ inter.upper ≤ inst2.t then ([], inst1, inst2)
    else
      let r := tsequenceAtPeriodLoop inter inst2 inst rest
      (if inter.lower ≤ inst2.t ∧ inst2.t ≤ inter.upper then inst2 :: r.1 else r.1, r.2)

/-- `tsequence_at_period`. -/
def tsequenceAtPeriod (bt : BaseType V) (bx : BBoxOps V B) (seq : TSequence V B) (p : Period) :
    Except String (Option (TSequence V B)) := do
  if !overlapsPeriodPeriod seq.period p then return none
  if seq.instants.length = 1 then return some (tsequenceCopy seq)
  match intersectionPeriodPeriod seq.period p with
  | none => return none
  | some inter =>
    if inter.lower = inter.upper then
      match tsequenceAtTimestamp bt seq inter.lower with
      | some inst => some <$> tsequenceMake bt bx [inst] true true seq.linear false
      | none => throw "tsequence_at_timestamp returned NULL"
    else
      let n := max (tsequenceFindTimestamp seq inter.lower) 0
      match segmentAt seq n with
      | none => return none
      | some (inst1, inst2) =>
        let first := tsequenceAtTimestamp1 bt inst1 inst2 seq.linear inter.lower
        let r := tsequenceAtPeriodLoop inter inst1 inst2 (seq.instants.drop (n.toNat + 2))
        let instants := first :: r.1
        let last := if seq.linear ∨ inter.upperInc then
            tsequenceAtTimestamp1 bt r.2.1 r.2.2 seq.linear inter.upper
          else ⟨(instants.getLast?.getD first).value, inter.upper⟩
        some <$> tsequenceMake bt bx (instants ++ [last]) inter.lowerInc inter.upperInc
          seq.linear false

/-- The loop of `tsequence_minus_period1` restricting the sequence to each period. -/
def tsequenceAtPeriods (bt : BaseType V) (bx : BBoxOps V B) (seq : TSequence V B) :
    List Period → Except String (List (TSequence V B))
  | [] => pure []
  | p1 :: ps => do
    let seq1 ← tsequenceAtPeriod bt bx seq p1
    let seqs ← tsequenceAtPeriods bt bx seq ps
    pure (seq1.toList ++ seqs)

/-- `tsequence_minus_period1`. When the difference of the periods is not empty, the
code restricts the sequence to each of its periods, frees the period set `ps` and then
returns `ps->count`, a read of freed memory; the model stops there. -/
def tsequenceMinusPeriod1 (bt : BaseType V) (bx : BBoxOps V B) (seq : TSequence V B)
    (p : Period) : Except String (List (TSequence V B)) := do
  if !overlapsPeriodPeriod seq.period p then return [tsequenceCopy seq]
  if seq.instants.length = 1 then return []
  match minusPeriodPeriod seq.period p with
  | [] => return []
  | ps => do
    let _ ← tsequenceAtPeriods bt bx seq ps
    throw "ps->count is read after pfree(ps)"

/-- The loop of `tsequence_at_periodset` from the period found by
`periodset_find_timestamp`. -/
def tsequenceAtPeriodsetLoop (bt : BaseType V) (bx : BBoxOps V B) (seq : TSequence V B) :
    List Period → Except String (List (TSequence V B))
  | [] => pure []
  | p :: rest => do
    let seq1 ← tsequenceAtPeriod bt bx seq p
    let seqs ← if seq.period.upper < p.upper then pure []
      else tsequenceAtPeriodsetLoop bt bx seq rest
    pure (seq1.toList ++ seqs)

/-- `tsequence_at_periodset` over the periods of a period set. -/
def tsequenceAtPeriodset (bt : BaseType V) (bx : BBoxOps V B) (seq : TSequence V B)
    (ps : List Period) : Except String (List (TSequence V B)) :=
  if !overlapsPeriodPeriod seq.period (periodsetBbox ps) then pure []
  else match seq.instants with
    | [inst] => pure (if containsPeriodsetTimestamp ps inst.t then [tsequenceCopy seq] else [])
    | _ => tsequenceAtPeriodsetLoop bt bx seq
      (ps.drop (periodsetFindTimestamp ps seq.period.lower))

/-- The loop of `tsequence_minus_periodset` with the current remainder `curr`. -/
def tsequenceMinusPeriodsetLoop (bt : BaseType V) (bx : BBoxOps V B) :
    TSequence V B → List Period → Except String (List (TSequence V B))
  | _, [] => pure []
  | curr, p1 :: rest =>
    if curr.period.upper < p1.lower ∨
        (curr.period.upper = p1.lower ∧ curr.period.upperInc ∧ !p1.lowerInc) then pure [curr]
    else do
      let minus ← tsequenceMinusPeriod1 bt bx curr p1
      match minus with
      | [] => pure []
      | [curr1] => if rest = [] then pure [curr1] else tsequenceMinusPeriodsetLoop bt bx curr1 rest
      | seq1 :: curr1 :: _ => do
        let seqs ← if rest = [] then pure [curr1] else tsequenceMinusPeriodsetLoop bt bx curr1 rest
        pure (seq1 :: seqs)

/-- `tsequence_minus_periodset` from the period of index `from`. -/
def tsequenceMinusPeriodset (bt : BaseType V) (bx : BBoxOps V B) (seq : TSequence V B)
    (ps : List Period) («from» : ℕ) : Except String (List (TSequence V B)) :=
  tsequenceMinusPeriodsetLoop bt bx (tsequenceCopy seq) (ps.drop «from»)

end TemporalSequence
