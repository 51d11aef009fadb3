import Mathlib.Data.List.Basic
import Mathlib.Algebra.BigOperators.Group.List
import Mathlib.Algebra.Order.Ring.Nat

/-!
# The data area of a sequence

After its header and its offset array a `TSequence` stores its instants, its bounding
box and, for point types with a precomputed trajectory, its trajectory, each at an
offset from the start of the data and each padded to 8 bytes. `tsequence_make` and
`tsequence_join` lay them out alike; `tsequence_append_tinstant` writes the trajectory
at the offset of the box. Sizes are byte counts: `VARSIZE` of each instant and of the
trajectory, and `temporal_bbox_size` of the base type.
-/

namespace TemporalSequence

/-- `double_pad`: a size rounded up to a multiple of 8 bytes. -/
def doublePad (size : ℕ) : ℕ := (size + 7) / 8 * 8

/-- The regions of the data area of a sequence, each an offset and a size in bytes,
and the size of the data area. -/
structure Layout where
  instants : List (ℕ × ℕ)
  bbox : Option (ℕ × ℕ)
  traj : Option (ℕ × ℕ)
  memsize : ℕ
deriving DecidableEq, Repr

/-- The loop copying instants of sizes `sizes` from the position `pos` on: each instant
is written at the current position, which then moves past its padded size. -/
def layoutInstants : ℕ → List ℕ → List (ℕ × ℕ) × ℕ
  | pos, [] => ([], pos)
  | pos, size :: sizes =>
    let rest := layoutInstants (pos + doublePad size) sizes
    ((pos, size) :: rest.1, rest.2)

/-- The layout of `tsequence_make` and `tsequence_join`: the instants, then the box
when the base type has one, then the trajectory when there is one. -/
def sequenceLayout (instSizes : List ℕ) (bboxsize : ℕ) (trajSize : Option ℕ) : Layout :=
  let memsize := doublePad bboxsize + (instSizes.map doublePad).sum +
    (trajSize.map doublePad).getD 0
  let placed := layoutInstants 0 instSizes
  let bbox := if bboxsize ≠ 0 then some (placed.2, bboxsize) else none
  let pos := if bboxsize ≠ 0 then placed.2 + doublePad bboxsize else placed.2
  ⟨placed.1, bbox, trajSize.map fun size => (pos, size), memsize⟩

/-- The layout of `tsequence_make` for its (normalized) instants. -/
def tsequenceMakeLayout (instSizes : List ℕ) (bboxsize : ℕ) (trajSize : Option ℕ) : Layout :=
  sequenceLayout instSizes bboxsize trajSize

/-- The layout of `tsequence_join` for the instants of `seq1`, without its last one
when `removelast`, and those of `seq2`, without its first one when `removefirst`. -/
def tsequenceJoinLayout (sizes1 sizes2 : List ℕ) (removelast removefirst : Bool) (bboxsize : ℕ)
    (trajSize : Option ℕ) : Layout :=
  sequenceLayout ((if removelast then sizes1.dropLast else sizes1) ++
    (if removefirst then sizes2.drop 1 else sizes2)) bboxsize trajSize

/-- The layout of `tsequence_append_tinstant` for the instants it keeps and the
appended one: the box is written after the instants, and the trajectory at the same
position, since the position is not moved past the box. -/
def tsequenceAppendLayout (instSizes : List ℕ) (instSize bboxsize : ℕ) (trajSize : Option ℕ) :
    Layout :=
  let memsize := doublePad bboxsize + (instSizes.map doublePad).sum + doublePad instSize +
    (trajSize.map doublePad).getD 0
  let placed := layoutInstants 0 instSizes
  let instants := placed.1 ++ [(placed.2, instSize)]
  let pos := placed.2 + doublePad instSize
  let bbox := if bboxsize ≠ 0 then some (pos, bboxsize) else none
  ⟨instants, bbox, trajSize.map fun size => (pos, size), memsize⟩

/-- All the regions of a layout. -/
def Layout.regions (l : Layout) : List (ℕ × ℕ) := l.instants ++ l.bbox.toList ++ l.traj.toList

/-- Two regions do not share a byte. -/
def RegionsDisjoint (a b : ℕ × ℕ) : Prop := a.1 + a.2 ≤ b.1 ∨ b.1 + b.2 ≤ a.1

/-- The regions of a layout are pairwise disjoint and lie inside its data area. -/
def Layout.Sound (l : Layout) : Prop :=
  l.regions.Pairwise RegionsDisjoint ∧ ∀ r ∈ l.regions, r.1 + r.2 ≤ l.memsize

end TemporalSequence
