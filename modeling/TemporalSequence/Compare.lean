import TemporalSequence.Basic

/-!
# Comparison of sequences

`tsequence_eq` and `tsequence_cmp`, over the comparators of periods, bounding boxes and
instants they call. Two sequences of one base type have flags that differ at most in
their interpolation flag, which the model keeps as `linear`; the flags compare as
integers, so a step sequence comes before a linear one.
-/

namespace TemporalSequence

variable {V B : Type}

/-- The comparators `tsequence_cmp` calls: `period_cmp_internal`, `temporal_bbox_cmp`
and `tinstant_cmp`, each a negative, zero or positive integer. -/
structure Comparators (V B : Type) where
  periodCmp : Period → Period → ℤ
  bboxCmp : B → B → ℤ
  tinstantCmp : TInstant V → TInstant V → ℤ

/-- The loop of `tsequence_cmp` over the first `Min(seq1->count, seq2->count)`
instants: the first nonzero comparison, or zero. -/
def tsequenceCmpInstants (cmp : TInstant V → TInstant V → ℤ) :
    List (TInstant V) → List (TInstant V) → ℤ
  | inst1 :: rest1, inst2 :: rest2 =>
    let result := cmp inst1 inst2
    if result ≠ 0 then result else tsequenceCmpInstants cmp rest1 rest2
  | _, _ => 0

/-- `tsequence_cmp`: the periods, then the bounding boxes, then the instants, then the
flags. -/
def tsequenceCmp (c : Comparators V B) (seq1 seq2 : TSequence V B) : ℤ :=
  let result := c.periodCmp seq1.period seq2.period
  if result ≠ 0 then result else
  let result := c.bboxCmp seq1.bbox seq2.bbox
  if result ≠ 0 then result else
  let result := tsequenceCmpInstants c.tinstantCmp seq1.instants seq2.instants
  if result ≠ 0 then result else
  if !seq1.linear && seq2.linear then -1
  else if seq1.linear && !seq2.linear then 1
  else 0

variable [DecidableEq V] [DecidableEq B]

/-- The loop of `tsequence_eq` over the instants of two sequences of one count
(`tinstant_eq` on each pair). -/
def tsequenceEqInstants : List (TInstant V) → List (TInstant V) → Bool
  | inst1 :: rest1, inst2 :: rest2 => if inst1 ≠ inst2 then false else tsequenceEqInstants rest1 rest2
  | _, _ => true

/-- `tsequence_eq`: the counts, flags and periods (`period_eq_internal`), then the
bounding boxes (`temporal_bbox_eq`), then the instants. -/
def tsequenceEq (seq1 seq2 : TSequence V B) : Bool :=
  if seq1.instants.length ≠ seq2.instants.length ∨ seq1.linear ≠ seq2.linear ∨
      seq1.period ≠ seq2.period then false
  else if seq1.bbox ≠ seq2.bbox then false
  else tsequenceEqInstants seq1.instants seq2.instants

end TemporalSequence
