import TemporalSequence.Layout
import Mathlib.Tactic.Linarith

/-!
# The regions of the data area

`tsequence_make` and `tsequence_join` place the instants one after the other, each
padded, then the box, then the trajectory: the regions never share a byte and fit in
the data area they allocate. `tsequence_append_tinstant` does not move its position
past the box, so with a box and a trajectory the trajectory is copied over the box.
-/

namespace TemporalSequence

lemma le_doublePad (size : ℕ) : size ≤ doublePad size := by
  unfold doublePad
  omega

@[simp] lemma doublePad_zero : doublePad 0 = 0 := rfl

lemma layoutInstants_spec (pos : ℕ) (sizes : List ℕ) :
    (layoutInstants pos sizes).2 = pos + (sizes.map doublePad).sum ∧
      (∀ r ∈ (layoutInstants pos sizes).1, pos ≤ r.1 ∧ r.1 + r.2 ≤ (layoutInstants pos sizes).2) ∧
      (layoutInstants pos sizes).1.Pairwise fun a b => a.1 + a.2 ≤ b.1 := by
  induction sizes generalizing pos with
  | nil => simp [layoutInstants]
  | cons size sizes ih =>
    obtain ⟨hend, hin, hsorted⟩ := ih (pos + doublePad size)
    have hpad := le_doublePad size
    simp only [layoutInstants, List.map_cons, List.sum_cons, List.mem_cons, forall_eq_or_imp,
      List.pairwise_cons]
    refine ⟨by omega, ⟨⟨le_rfl, by omega⟩, fun r hr => ?_⟩, fun r hr => by have := hin r hr; omega,
      hsorted⟩
    have := hin r hr
    omega

lemma pairwise_regionsDisjoint {rs : List (ℕ × ℕ)} (h : rs.Pairwise fun a b => a.1 + a.2 ≤ b.1) :
    rs.Pairwise RegionsDisjoint :=
  h.imp Or.inl

/-- The layout of `tsequence_make` and `tsequence_join` is sound for all sizes. -/
theorem sequenceLayout_sound (instSizes : List ℕ) (bboxsize : ℕ) (trajSize : Option ℕ) :
    (sequenceLayout instSizes bboxsize trajSize).Sound := by
  obtain ⟨hend, hin, hsorted⟩ := layoutInstants_spec 0 instSizes
  have hpad := le_doublePad bboxsize
  have hpadt := fun size => le_doublePad size
  simp only [zero_add] at hend
  -- the position after the box
  set P := (layoutInstants 0 instSizes).2 with hP
  have hbox : ∀ r ∈ (if bboxsize ≠ 0 then some (P, bboxsize) else none).toList,
      P ≤ r.1 ∧ r.1 + r.2 ≤ if bboxsize ≠ 0 then P + doublePad bboxsize else P := by
    split_ifs <;> simp [*]
  refine ⟨pairwise_regionsDisjoint ?_, ?_⟩
  · simp only [Layout.regions, sequenceLayout, ← hP]
    rw [List.pairwise_append, List.pairwise_append]
    refine ⟨⟨hsorted, by split_ifs <;> simp, fun a ha b hb => (hin a ha).2.trans (hbox b hb).1⟩,
      by cases trajSize <;> simp, fun a ha b hb => ?_⟩
    cases trajSize with
    | none => simp at hb
    | some size =>
      simp only [Option.map_some', Option.toList_some, List.mem_singleton] at hb
      subst hb
      rcases List.mem_append.mp ha with ha | ha
      · have := (hin a ha).2
        split_ifs <;> simp only <;> omega
      · exact (hbox a ha).2
  · simp only [Layout.regions, sequenceLayout, ← hP, List.mem_append]
    rintro r ((hr | hr) | hr)
    · have := (hin r hr).2
      omega
    · have := (hbox r hr).2
      split_ifs at this <;> omega
    · cases trajSize with
      | none => simp at hr
      | some size =>
        simp only [Option.map_some', Option.toList_some, List.mem_singleton] at hr
        subst hr
        have := hpadt size
        split_ifs <;> simp only [Option.map_some', Option.getD_some] <;> omega

lemma tsequenceAppendLayout_bbox_traj (instSizes : List ℕ) (instSize bboxsize trajSize : ℕ)
    (hbox : bboxsize ≠ 0) :
    (tsequenceAppendLayout instSizes instSize bboxsize (some trajSize)).bbox =
        some ((layoutInstants 0 instSizes).2 + doublePad instSize, bboxsize) ∧
      (tsequenceAppendLayout instSizes instSize bboxsize (some trajSize)).traj =
        some ((layoutInstants 0 instSizes).2 + doublePad instSize, trajSize) := by
  simp [tsequenceAppendLayout, hbox]

/-- For a base type with a box and a trajectory, `tsequence_make` lays out the instants
of an appended sequence soundly, while `tsequence_append_tinstant` copies the
trajectory over the box. -/
theorem tsequence_append_layout_overlap (instSizes : List ℕ) (instSize bboxsize trajSize : ℕ)
    (hbox : bboxsize ≠ 0) (htraj : trajSize ≠ 0) :
    (tsequenceMakeLayout (instSizes ++ [instSize]) bboxsize (some trajSize)).Sound ∧
      ¬(tsequenceAppendLayout instSizes instSize bboxsize (some trajSize)).Sound := by
  refine ⟨sequenceLayout_sound _ _ _, fun hsound => ?_⟩
  have hdisj := hsound.1
  obtain ⟨hb, ht⟩ := tsequenceAppendLayout_bbox_traj instSizes instSize bboxsize trajSize hbox
  simp only [Layout.regions, hb, ht, Option.toList_some, List.pairwise_append] at hdisj
  -- the box against the trajectory
  have := hdisj.2.2 _ (List.mem_append_right _ (List.mem_singleton_self _)) _
    (List.mem_singleton_self _)
  simp only [RegionsDisjoint] at this
  omega

/-- Appending a point instant of 48 bytes to a sequence of two, with a box of 72 bytes
and a trajectory of 64 bytes, overwrites the box. -/
theorem tsequence_append_layout_overlap_point :
    (72 : ℕ) ≠ 0 ∧ (64 : ℕ) ≠ 0 ∧
    (tsequenceMakeLayout [48, 48, 48] 72 (some 64)).Sound ∧
      ¬(tsequenceAppendLayout [48, 48] 48 72 (some 64)).Sound :=
  ⟨by decide, by decide, tsequence_append_layout_overlap [48, 48] 48 72 64 (by decide) (by decide)⟩

end TemporalSequence
