import TemporalSequence.Search

/-!
# Synchronization of two sequences

`synchronize_tsequence_tsequence` walks the instants of two sequences over the
intersection of their periods, merging their timestamps: at each step it takes the
earlier of the two current instants and evaluates the other sequence at its
timestamp. With `crossings` it also adds, before each new pair of instants, the
instant at which the two segments ending there cross. A step sequence with an
exclusive upper bound ends with its last value repeated.
-/

namespace TemporalSequence

variable {V B : Type} [DecidableEq V]

/-- The crossing that `synchronize_tsequence_tsequence` adds before the new pair
`inst1`, `inst2` when the pair `prev` was added last: the two instants of
`tsequence_intersection` on the segments from `prev`, if any. -/
def synchronizeCrossing (bt : BaseType V) (linear1 linear2 crossings : Bool)
    (prev : Option (TInstant V × TInstant V)) (inst1 inst2 : TInstant V) :
    List (TInstant V × TInstant V) :=
  if crossings ∧ (linear1 ∨ linear2) then
    match prev with
    | some (prev1, prev2) =>
      match tsequenceIntersection bt prev1 inst1 linear1 prev2 inst2 linear2 with
      | some (inter1, inter2, crosstime) => [(⟨inter1, crosstime⟩, ⟨inter2, crosstime⟩)]
      | none => []
    | none => []
  else []

/-- The loop of `synchronize_tsequence_tsequence`: `inst1` and `inst2` are the current
instants of the two sequences, `rest1` and `rest2` the instants after their indices
`i` and `j`, and `prev` the pair of instants added last. It returns the pairs of
synchronized instants it adds. -/
def synchronizeLoop (bt : BaseType V) (seq1 seq2 : TSequence V B) (crossings : Bool)
    (upper : ℤ) (prev : Option (TInstant V × TInstant V)) (inst1 : TInstant V)
    (rest1 : List (TInstant V)) (inst2 : TInstant V) (rest2 : List (TInstant V)) :
    Except String (List (TInstant V × TInstant V)) :=
  let add (new1 new2 : TInstant V) (more : Except String (List (TInstant V × TInstant V))) :=
    (fun pairs => synchronizeCrossing bt seq1.linear seq2.linear crossings prev new1 new2 ++
      (new1, new2) :: pairs) <$> more
  if inst1.t ≤ upper ∨ inst2.t ≤ upper then
    if inst1.t = inst2.t then
      add inst1 inst2 (match rest1, rest2 with
        | next1 :: rest1, next2 :: rest2 =>
          synchronizeLoop bt seq1 seq2 crossings upper (some (inst1, inst2)) next1 rest1 next2 rest2
        | _, _ => pure [])
    else if inst1.t < inst2.t then
      match tsequenceAtTimestamp bt seq2 inst1.t with
      | some inst => add inst1 inst (match rest1 with
        | next1 :: rest1 =>
          synchronizeLoop bt seq1 seq2 crossings upper (some (inst1, inst)) next1 rest1 inst2 rest2
        | [] => pure [])
      | none => throw "tsequence_at_timestamp returned NULL"
    else
      match tsequenceAtTimestamp bt seq1 inst2.t with
      | some inst => add inst inst2 (match rest2 with
        | next2 :: rest2 =>
          synchronizeLoop bt seq1 seq2 crossings upper (some (inst, inst2)) inst1 rest1 next2 rest2
        | [] => pure [])
      | none => throw "tsequence_at_timestamp returned NULL"
  else pure []
termination_by rest1.length + rest2.length

/-- The end of `synchronize_tsequence_tsequence`: with step interpolation and an
exclusive upper bound, the last of at least two instants takes the value of the one
before it. -/
def synchronizeStepEnd (linear upperInc : Bool) (instants : List (TInstant V)) :
    List (TInstant V) :=
  if !upperInc ∧ !linear then
    match lastTwo? instants with
    | some (inst1, inst2) =>
      if inst1.value ≠ inst2.value then instants.dropLast ++ [⟨inst1.value, inst2.t⟩]
      else instants
    | none => instants
  else instants

/-- The start of the loop of `synchronize_tsequence_tsequence`: the first instant of
the sequence starting later, and the other sequence evaluated at the lower bound of
the intersection, with the index of its segment there. -/
def synchronizeStart (bt : BaseType V) (seq1 seq2 : TSequence V B) (lower : ℤ)
    (first1 first2 : TInstant V) : Except String (TInstant V × ℤ × TInstant V × ℤ) :=
  if first1.t < lower then
    match tsequenceAtTimestamp bt seq1 lower with
    | some inst => pure (inst, tsequenceFindTimestamp seq1 lower, first2, 0)
    | none => throw "tsequence_at_timestamp returned NULL"
  else if first2.t < lower then
    match tsequenceAtTimestamp bt seq2 lower with
    | some inst => pure (first1, 0, inst, tsequenceFindTimestamp seq2 lower)
    | none => throw "tsequence_at_timestamp returned NULL"
  else pure (first1, 0, first2, 0)

/-- `synchronize_tsequence_tsequence`: `none` when the periods do not intersect (the
C function returns `false`), otherwise the two synchronized sequences. -/
def synchronizeTsequenceTsequence (bt : BaseType V) (bx : BBoxOps V B) (seq1 seq2 : TSequence V B)
    (crossings : Bool) : Except String (Option (TSequence V B × TSequence V B)) :=
  match intersectionPeriodPeriod seq1.period seq2.period with
  | none => pure none
  | some inter =>
    if inter.lower = inter.upper then
      match tsequenceAtTimestamp bt seq1 inter.lower, tsequenceAtTimestamp bt seq2 inter.lower with
      | some inst1, some inst2 => do
        let sync1 ← tsequenceMake bt bx [inst1] true true seq1.linear false
        let sync2 ← tsequenceMake bt bx [inst2] true true seq2.linear false
        pure (some (sync1, sync2))
      | _, _ => throw "tsequence_at_timestamp returned NULL"
    else
      match seq1.instants, seq2.instants with
      | first1 :: _, first2 :: _ => do
        let (inst1, i, inst2, j) ← synchronizeStart bt seq1 seq2 inter.lower first1 first2
        let pairs ← synchronizeLoop bt seq1 seq2 crossings inter.upper none
          inst1 (seq1.instants.drop (i + 1).toNat) inst2 (seq2.instants.drop (j + 1).toNat)
        let sync1 ← tsequenceMake bt bx
          (synchronizeStepEnd seq1.linear inter.upperInc (pairs.map Prod.fst))
          inter.lowerInc inter.upperInc seq1.linear false
        let sync2 ← tsequenceMake bt bx
          (synchronizeStepEnd seq2.linear inter.upperInc (pairs.map Prod.snd))
          inter.lowerInc inter.upperInc seq2.linear false
        pure (some (sync1, sync2))
      | _, _ => pure none

end TemporalSequence
