import TemporalSequence.TNumber

/-!
# Normalizing and merging arrays of sequences

`tsequencearr_normalize` walks a time-ordered array of sequences and joins each one
to the sequence built so far when they touch at a shared timestamp and the segments
around it allow it, by `tsequence_join` without the last instant of the first, the
first instant of the second, or both. `tsequence_merge_array` sorts an array of
sequences, groups in a first pass the sequences that share their boundary instant
and counts the instants of each group, then in a second pass copies the instants of
each group into one buffer, shared by all the groups, from which it makes each
resulting sequence with `tsequence_make`.

The buffer is a function from positions to optional instants: a position that was
never written holds `none`. Reading such a position, or reading the array of
sequences past its end, is undefined behaviour in the C code; the model stops there
with an error. The message of `ensure_same_interpolation` is not in the source; the
model names the check instead. The size of the buffer (`maxcount`) is not modelled.
-/

namespace TemporalSequence

variable {V B : Type} [DecidableEq V]

/-! ## Normalization of an array of sequences -/

/-- The tests of the loop of `tsequencearr_normalize` on the sequence `seq1` built so
far and the next sequence `seq2`: the flags `removelast` and `removefirst` with which
`tsequence_join` joins them, or `none` when `seq2` starts a new sequence. The first
test reads the last two instants of `seq1` and the first two of `seq2`. -/
def tsequencearrJoinFlags (bt : BaseType V) (linear : Bool) (seq1 seq2 : TSequence V B) :
    Option (Bool × Bool) :=
  match seq1.instants.getLast?, seq2.instants.head? with
  | some last1, some first1 =>
    let adjacent := seq1.period.upper == seq2.period.lower &&
      (seq1.period.upperInc || seq2.period.lowerInc)
    let redundant := match (lastTwo? seq1.instants).map Prod.fst, seq2.instants[1]? with
      | some last2, some first2 =>
        (!linear && last2.value == last1.value && last1.value == first1.value) ||
        (last2.value == last1.value && last1.value == first1.value &&
          first1.value == first2.value) ||
        (last1.value == first1.value &&
          datumCollinear bt last2.value first1.value first2.value last2.t first1.t first2.t)
      | _, _ => false
    if adjacent && redundant then some (true, true)
    else if adjacent && !linear && !seq1.period.upperInc then some (true, false)
    else if adjacent && last1.value == first1.value then some (false, true)
    else none
  | _, _ => none

/-- The loop of `tsequencearr_normalize` from the sequence `seq1` built so far. -/
def tsequencearrNormalizeLoop (bt : BaseType V) (bx : BBoxOps V B) (linear : Bool) :
    TSequence V B → List (TSequence V B) → List (TSequence V B)
  | seq1, [] => [seq1]
  | seq1, seq2 :: rest =>
    match tsequencearrJoinFlags bt linear seq1 seq2 with
    | some (removelast, removefirst) =>
      tsequencearrNormalizeLoop bt bx linear (tsequenceJoin bx seq1 seq2 removelast removefirst) rest
    | none => seq1 :: tsequencearrNormalizeLoop bt bx linear seq2 rest

/-- `tsequencearr_normalize`, with the interpolation of the first sequence. -/
def tsequencearrNormalize (bt : BaseType V) (bx : BBoxOps V B) :
    List (TSequence V B) → List (TSequence V B)
  | [] => []
  | seq1 :: rest => tsequencearrNormalizeLoop bt bx seq1.linear seq1 rest

/-! ## Merging -/

/-- A temporal value `tsequence_merge_array` returns: a sequence, or a sequence set
given by its sequences. -/
inductive Temporal (V B : Type) where
  | sequence (seq : TSequence V B)
  | sequenceSet (seqs : List (TSequence V B))

/-- Modelled from the spec: `tsequenceset_make_free` with normalization, the sequence
set of the normalized array of sequences. -/
def tsequencesetMakeFree (bt : BaseType V) (bx : BBoxOps V B) (seqs : List (TSequence V B)) :
    Temporal V B :=
  .sequenceSet (tsequencearrNormalize bt bx seqs)

/-- The first pass of `tsequence_merge_array` from the previous sequence `prev`: the
checks on each consecutive pair, and the counts of instants of the resulting
sequences, the count of the current one first. A sequence that starts at the
timestamp where the previous one ends, with an inclusive lower bound, continues the
current one without its first instant. -/
def tsequenceMergeCounts : TSequence V B → List (TSequence V B) → List ℕ → Except String (List ℕ)
  | _, [], counts => pure counts
  | prev, seq :: rest, counts =>
    if prev.linear ≠ seq.linear then throw "ensure_same_interpolation" else
    match prev.instants.getLast?, seq.instants.head? with
    | some inst1, some inst2 =>
      if inst2.t < inst1.t then throw "The temporal values cannot overlap on time"
      else if inst1.t = inst2.t ∧ seq.period.lowerInc then
        if inst1.value ≠ inst2.value ∧ prev.period.upperInc ∧ seq.period.lowerInc then
          throw "The temporal values have different value at their overlapping instant"
        else tsequenceMergeCounts seq rest (counts.modifyHead (· + (seq.instants.length - 1)))
      else tsequenceMergeCounts seq rest (seq.instants.length :: counts)
    | _, _ => throw "count > 0"

/-- The buffer with the instants `instants` written from position `m` on. -/
def writeInstants (buf : ℕ → Option (TInstant V)) (m : ℕ) :
    List (TInstant V) → ℕ → Option (TInstant V)
  | [] => buf
  | inst :: rest => writeInstants (Function.update buf m (some inst)) (m + 1) rest

/-- The `count` instants of the buffer from position `m` on, or `none` when one of
these positions was never written. -/
def readInstants (buf : ℕ → Option (TInstant V)) : ℕ → ℕ → Option (List (TInstant V))
  | _, 0 => some []
  | m, count + 1 => do
    let inst ← buf m
    let rest ← readInstants buf (m + 1) count
    pure (inst :: rest)

/-- The inner loop of the second pass of `tsequence_merge_array`: while fewer than
`count` instants are written and sequences remain, copy the instants of the sequence
of index `l` from position `m` on, without its first instant unless its lower bound
is inclusive and it starts the group or follows an exclusive upper bound, and without
its last instant when its upper bound is exclusive. -/
def tsequenceMergeCopy (seqs : List (TSequence V B)) (count : ℕ) :
    ℕ → (ℕ → Option (TInstant V)) → ℕ → ℕ → (ℕ → Option (TInstant V)) × ℕ × ℕ
  | 0, buf, m, l => (buf, m, l)
  | fuel + 1, buf, m, l =>
    match seqs[l]? with
    | some seq =>
      if m < count then
        let start := if seq.period.lowerInc &&
            (m == 0 || !(seqs[l - 1]?.any fun prev => prev.period.upperInc)) then 0 else 1
        let finish := if seq.period.upperInc then seq.instants.length else seq.instants.length - 1
        let copied := (seq.instants.take finish).drop start
        tsequenceMergeCopy seqs count fuel (writeInstants buf m copied) (m + copied.length) (l + 1)
      else (buf, m, l)
    | none => (buf, m, l)

/-- The outer loop of the second pass of `tsequence_merge_array`: for the counts of
the resulting sequences in order, from the input sequence of index `l`, the loop
copying their instants into the shared buffer, the last instant of the group written
after them when its upper bound is exclusive, and `tsequence_make` with normalization
on the first `count` instants of the buffer. -/
def tsequenceMergeBuild (bt : BaseType V) (bx : BBoxOps V B) (seqs : List (TSequence V B))
    (linear : Bool) : List ℕ → (ℕ → Option (TInstant V)) → ℕ → Except String (List (TSequence V B))
  | [], _, _ => pure []
  | count :: counts, buf, l => do
    let some first := seqs[l]? | throw "sequences is read past its end"
    let lowerinc := first.period.lowerInc
    let (buf, m, l) := tsequenceMergeCopy seqs count seqs.length buf 0 l
    let some last := seqs[l - 1]? | throw "sequences is read past its end"
    let upperinc := last.period.upperInc
    let buf := if !upperinc then Function.update buf m last.instants.getLast? else buf
    let some instants := readInstants buf 0 count | throw "the buffer is read where it was not written"
    let seq ← tsequenceMake bt bx instants lowerinc upperinc linear true
    let rest ← tsequenceMergeBuild bt bx seqs linear counts buf l
    pure (seq :: rest)

/-- `tsequence_merge_array`. -/
def tsequenceMergeArray (bt : BaseType V) (bx : BBoxOps V B) (sequences : List (TSequence V B)) :
    Except String (Temporal V B) := do
  let sequences := if 1 < sequences.length then tsequencearrSort sequences else sequences
  let some seq0 := sequences.head? | throw "sequences is read past its end"
  let counts ← tsequenceMergeCounts seq0 (sequences.drop 1) [seq0.instants.length]
  let newseqs ← tsequenceMergeBuild bt bx sequences seq0.linear counts.reverse (fun _ => none) 0
  pure (match newseqs with
    | [seq] => .sequence seq
    | _ => tsequencesetMakeFree bt bx newseqs)

/-- `tsequence_merge`. -/
def tsequenceMerge (bt : BaseType V) (bx : BBoxOps V B) (seq1 seq2 : TSequence V B) :
    Except String (Temporal V B) :=
  tsequenceMergeArray bt bx [seq1, seq2]

end TemporalSequence
