import TemporalSequence.SegmentMath

/-!
# Construction of sequences

`tsequence_make` validates an instant array, normalizes it when asked and computes
the bounding box; `tsequence_join`, `tsequence_append_tinstant`, the casts and
`tsequence_shift` build a sequence from existing ones without that validation.
An `ereport(ERROR, ...)` of the C code is an `Except.error` carrying its message.
The bounding boxes and the check `ensure_valid_tinstantarr` are implemented
outside this file; the boxes are the parameter `BBoxOps` and the check is
modelled from its specification.
-/

namespace TemporalSequence

/-- The bounding-box functions of `temporal_boxops.c` used by `tsequence.c`. -/
structure BBoxOps (V B : Type) where
  /-- `tsequence_make_bbox` over an instant array and its bound flags. -/
  make : List (TInstant V) → Bool → Bool → B
  /-- `tinstant_make_bbox`. -/
  ofInstant : TInstant V → B
  /-- `temporal_bbox_expand`: the smallest box containing both. -/
  expand : B → B → B
  /-- The box that is a copy of the period (`bool` and `text` values), if any. -/
  ofPeriod : Option (Period → B)
  /-- `temporal_bbox_restrict_value`: whether the box may contain the value. -/
  restrictValue : B → V → Bool

variable {V B : Type} [DecidableEq V]

/-- The last two elements of an array, if it has two. -/
def lastTwo? {α : Type} : List α → Option (α × α)
  | [a, b] => some (a, b)
  | _ :: b :: c :: rest => lastTwo? (b :: c :: rest)
  | _ => none

lemma lastTwo?_append_singleton {α : Type} (l : List α) (y : α) :
    lastTwo? (l ++ [y]) = l.getLast?.map fun x => (x, y) := by
  match l with
  | [] => rfl
  | [x] => rfl
  | x :: x' :: rest =>
    rw [List.cons_append, List.cons_append, List.getLast?_cons_cons]
    match rest with
    | [] => rfl
    | z :: rest => exact lastTwo?_append_singleton (x' :: z :: rest) y

lemma lastTwo?_cons_of_two_le {α : Type} (a : α) {l : List α} (h : 2 ≤ l.length) :
    lastTwo? (a :: l) = lastTwo? l := by
  match l, h with
  | _ :: _ :: _, _ => rfl

lemma lastTwo?_append_of_two_le {α : Type} (l1 : List α) {l2 : List α} (h : 2 ≤ l2.length) :
    lastTwo? (l1 ++ l2) = lastTwo? l2 := by
  induction l1 with
  | nil => rfl
  | cons a l1 ih =>
    rw [List.cons_append, lastTwo?_cons_of_two_le _ (by simp; omega), ih]

lemma exists_eq_append_of_lastTwo? {α : Type} :
    ∀ {l : List α} {a b : α}, lastTwo? l = some (a, b) → ∃ init, l = init ++ [a, b]
  | [_, _], _, _, h => by
    simp only [lastTwo?, Option.some.injEq, Prod.mk.injEq] at h
    obtain ⟨rfl, rfl⟩ := h
    exact ⟨[], rfl⟩
  | x :: y :: z :: rest, _, _, h =>
    let ⟨init, hinit⟩ := exists_eq_append_of_lastTwo? (l := y :: z :: rest) h
    ⟨x :: init, by rw [hinit]; rfl⟩
  | [], _, _, h | [_], _, _, h => by simp [lastTwo?] at h

/-- Modelled from the spec: `ensure_valid_tinstantarr` rejects an array whose
timestamps are not strictly increasing. -/
def ensureValidTinstantarr (instants : List (TInstant V)) : Except String Unit :=
  if instants.Chain' (fun inst1 inst2 => inst1.t < inst2.t) then pure ()
  else throw "Timestamps for temporal value must be increasing"

/-- The validity checks made by `tsequence_make` before it builds the sequence. -/
def tsequenceMakeCheck (instants : List (TInstant V)) (lowerInc upperInc linear : Bool) :
    Except String Unit := do
  if instants = [] then throw "count > 0"
  ensureValidTinstantarr instants
  if instants.length = 1 ∧ (!lowerInc ∨ !upperInc) then
    throw "Instant sequence must have inclusive bounds"
  if !linear ∧ (lastTwo? instants).any (fun p => p.1.value ≠ p.2.value) ∧ !upperInc then
    throw "Invalid end value for temporal sequence"

/-- The test of `tinstantarr_normalize` that drops `inst2`, kept between the last
kept instant `inst1` and the next instant `inst3`. -/
def normalizeRedundant (bt : BaseType V) (linear : Bool) (inst1 inst2 inst3 : TInstant V) :
    Bool :=
  (!linear && inst1.value == inst2.value) ||
    (linear && inst1.value == inst2.value && inst2.value == inst3.value) ||
    (linear && datumCollinear bt inst1.value inst2.value inst3.value inst1.t inst2.t inst3.t)

/-- The loop of `tinstantarr_normalize` from the last kept instant `inst1` and the
candidate `inst2`. -/
def tinstantarrNormalizeLoop (bt : BaseType V) (linear : Bool) :
    TInstant V → TInstant V → List (TInstant V) → List (TInstant V)
  | _, inst2, [] => [inst2]
  | inst1, inst2, inst3 :: rest =>
    if normalizeRedundant bt linear inst1 inst2 inst3 then
      tinstantarrNormalizeLoop bt linear inst1 inst3 rest
    else inst2 :: tinstantarrNormalizeLoop bt linear inst2 inst3 rest

/-- `tinstantarr_normalize`: a single left-to-right pass removing redundant instants
of an array of at least two instants. -/
def tinstantarrNormalize (bt : BaseType V) (instants : List (TInstant V)) (linear : Bool) :
    List (TInstant V) :=
  match instants with
  | inst1 :: inst2 :: rest => inst1 :: tinstantarrNormalizeLoop bt linear inst1 inst2 rest
  | _ => instants

/-- `tsequence_make`. -/
def tsequenceMake (bt : BaseType V) (bx : BBoxOps V B) (instants : List (TInstant V))
    (lowerInc upperInc linear normalize : Bool) : Except String (TSequence V B) := do
  tsequenceMakeCheck instants lowerInc upperInc linear
  let norminsts :=
    if normalize ∧ 1 < instants.length then tinstantarrNormalize bt instants linear else instants
  pure ⟨norminsts, periodOf norminsts lowerInc upperInc, linear, bx.make norminsts lowerInc upperInc⟩

theorem tsequenceMakeCheck_eq_ok {instants : List (TInstant V)} {lowerInc upperInc linear : Bool} :
    tsequenceMakeCheck instants lowerInc upperInc linear = .ok () ↔
      instants ≠ [] ∧ instants.Chain' (fun inst1 inst2 => inst1.t < inst2.t) ∧
      ¬(instants.length = 1 ∧ (!lowerInc ∨ !upperInc)) ∧
      ¬(!linear ∧ (lastTwo? instants).any (fun p => p.1.value ≠ p.2.value) ∧ !upperInc) := by
  simp only [tsequenceMakeCheck, ensureValidTinstantarr]
  split_ifs <;> simp_all [bind, Except.bind, pure, Except.pure, throw, throwThe, MonadExceptOf.throw]

/-- `tsequence_make` succeeds exactly when its checks pass, with the (normalized)
instants, their period and their box. -/
theorem tsequenceMake_eq_ok {bt : BaseType V} {bx : BBoxOps V B} {instants : List (TInstant V)}
    {lowerInc upperInc linear normalize : Bool} {seq : TSequence V B} :
    tsequenceMake bt bx instants lowerInc upperInc linear normalize = .ok seq ↔
      tsequenceMakeCheck instants lowerInc upperInc linear = .ok () ∧
      let norminsts :=
        if normalize ∧ 1 < instants.length then tinstantarrNormalize bt instants linear else instants
      seq = ⟨norminsts, periodOf norminsts lowerInc upperInc, linear,
        bx.make norminsts lowerInc upperInc⟩ := by
  unfold tsequenceMake
  cases tsequenceMakeCheck instants lowerInc upperInc linear <;>
    simp [bind, Except.bind, pure, Except.pure, eq_comm]

/-- The fields `tsequence_write` sends, in the order it sends them. -/
structure SequenceMessage (V : Type) where
  count : ℕ
  lowerInc : Bool
  upperInc : Bool
  linear : Bool
  instants : List (TInstant V)
deriving DecidableEq, Repr

/-- `tsequence_write`: the count, the bound flags, the interpolation flag and the
instants; the bounding box is not sent. -/
def tsequenceWrite (seq : TSequence V B) : SequenceMessage V :=
  ⟨seq.instants.length, seq.period.lowerInc, seq.period.upperInc, seq.linear, seq.instants⟩

/-- `tsequence_read`: the instants read back are handed to `tsequence_make` with
normalization. -/
def tsequenceRead (bt : BaseType V) (bx : BBoxOps V B) (msg : SequenceMessage V) :
    Except String (TSequence V B) :=
  tsequenceMake bt bx (msg.instants.take msg.count) msg.lowerInc msg.upperInc msg.linear true

/-- `tsequence_from_base_internal`: the constant sequence over a period. -/
def tsequenceFromBaseInternal (bt : BaseType V) (bx : BBoxOps V B) (value : V) (p : Period)
    (linear : Bool) : Except String (TSequence V B) :=
  tsequenceMake bt bx [⟨value, p.lower⟩, ⟨value, p.upper⟩] p.lowerInc p.upperInc linear false

/-- `tsequence_join`: the instants of `seq1` and `seq2`, without the last one of
`seq1` and the first one of `seq2` when asked, with the box expanded. -/
def tsequenceJoin (bx : BBoxOps V B) (seq1 seq2 : TSequence V B) (removelast removefirst : Bool) :
    TSequence V B :=
  let period : Period := ⟨seq1.period.lower, seq2.period.upper, seq1.period.lowerInc,
    seq2.period.upperInc⟩
  { instants := (if removelast then seq1.instants.dropLast else seq1.instants) ++
      (if removefirst then seq2.instants.drop 1 else seq2.instants)
    period := period
    linear := seq1.linear
    bbox := match bx.ofPeriod with
      | some ofPeriod => ofPeriod period
      | none => bx.expand seq1.bbox seq2.bbox }

/-- The test of `tsequence_append_tinstant` replacing the last instant of the
sequence by the appended one. -/
def appendReplacesLast (bt : BaseType V) (linear : Bool) (inst1 inst2 inst : TInstant V) : Bool :=
  (!linear && inst1.value == inst2.value) ||
    (inst1.value == inst2.value && inst2.value == inst.value) ||
    (linear && datumCollinear bt inst1.value inst2.value inst.value inst1.t inst2.t inst.t)

/-- `tsequence_append_tinstant`; `ensure_increasing_timestamps` is modelled from the
spec. -/
def tsequenceAppendTinstant (bt : BaseType V) (bx : BBoxOps V B) (seq : TSequence V B)
    (inst : TInstant V) : Except String (TSequence V B) := do
  if inst.t ≤ lastT seq.instants then throw "Timestamps for temporal value must be increasing"
  let replace := match lastTwo? seq.instants with
    | some (inst1, inst2) => appendReplacesLast bt seq.linear inst1 inst2 inst
    | none => false
  pure { instants := (if replace then seq.instants.dropLast else seq.instants) ++ [inst]
         period := ⟨seq.period.lower, inst.t, seq.period.lowerInc, true⟩
         linear := seq.linear
         bbox := bx.expand seq.bbox (bx.ofInstant inst) }

/-- `tsequence_copy`. -/
def tsequenceCopy (seq : TSequence V B) : TSequence V B := seq

/-- `tintseq_to_tfloatseq`: the values are converted in place in a copy. -/
def tintseqToTfloatseq (seq : TSequence ℤ B) : TSequence ℚ B :=
  { tsequenceCopy seq with instants := seq.instants.map fun inst => ⟨(inst.value : ℚ), inst.t⟩ }

/-- The `int4` that `Int32GetDatum` stores for a double: the value truncated to a
`Datum`, of which `DatumGetInt32` reads the low 32 bits as a signed integer. -/
def int32GetDatum (x : ℚ) : ℤ :=
  (longOfDouble x + 2 ^ 31) % 2 ^ 32 - 2 ^ 31

/-- `tfloatseq_to_tintseq`: the values are truncated in place in a copy. -/
def tfloatseqToTintseq (seq : TSequence ℚ B) : Except String (TSequence ℤ B) :=
  if seq.linear then
    throw "Cannot cast temporal float with linear interpolation to temporal integer"
  else pure { tsequenceCopy seq with
    instants := seq.instants.map fun inst => ⟨int32GetDatum inst.value, inst.t⟩ }

/-- `tsequence_shift`; `plInterval` is `timestamptz_pl_interval` with the interval
and `shiftBox` is `temporal_bbox_shift` with the interval. -/
def tsequenceShift (plInterval : ℤ → ℤ) (shiftBox : B → B) (seq : TSequence V B) :
    TSequence V B :=
  { tsequenceCopy seq with
    instants := seq.instants.map fun inst => ⟨inst.value, plInterval inst.t⟩
    period := { seq.period with lower := plInterval seq.period.lower,
                                upper := plInterval seq.period.upper }
    bbox := shiftBox seq.bbox }

/-- The loop of `tstepseq_to_linear1`: one linear sequence per step segment. -/
def tstepseqToLinearLoop (bt : BaseType V) (bx : BBoxOps V B) (upperInc : Bool) :
    Bool → TInstant V → List (TInstant V) → Except String (List (TSequence V B))
  | _, _, [] => pure []
  | lowerInc, inst1, inst2 :: rest => do
    let upperInc1 := if rest = [] then upperInc && inst1.value == inst2.value else false
    let seq1 ← tsequenceMake bt bx [inst1, ⟨inst1.value, inst2.t⟩] lowerInc upperInc1 true false
    let seqs ← tstepseqToLinearLoop bt bx upperInc true inst2 rest
    pure (seq1 :: seqs)

/-- `tstepseq_to_linear1`. -/
def tstepseqToLinear1 (bt : BaseType V) (bx : BBoxOps V B) (seq : TSequence V B) :
    Except String (List (TSequence V B)) :=
  match seq.instants with
  | [] => pure []
  | [_] => pure [{ tsequenceCopy seq with linear := true }]
  | inst1 :: rest => do
    let seqs ← tstepseqToLinearLoop bt bx seq.period.upperInc seq.period.lowerInc inst1 rest
    match lastTwo? seq.instants with
    | some (inst, last) =>
      if seq.period.upperInc ∧ inst.value ≠ last.value then
        let seq1 ← tsequenceMake bt bx [last] true true true false
        pure (seqs ++ [seq1])
      else pure seqs
    | none => pure seqs

end TemporalSequence
