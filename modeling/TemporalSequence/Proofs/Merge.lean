import TemporalSequence.Merge
import TemporalSequence.Proofs.Pieces

/-!
# Normalizing and merging arrays of sequences

Two ways the array functions lose the values of their input.

`tsequencearr_normalize` joins two sequences touching at a shared instant, dropping
that instant on both sides, when the value is the same on both sides and the last
segment of the first and the first segment of the second are collinear. This third
test is not restricted to linear interpolation: two step sequences whose end points
happen to be collinear are joined too, and the joined step sequence keeps the value
before the shared instant past it.

The second pass of `tsequence_merge_array` copies the first instant of a sequence only
when its lower bound is inclusive, even when the sequence starts a new group, whose
count of instants includes that instant. A group that starts with an exclusive lower
bound then takes its last instant from what the previous group left in the shared
buffer, which lies before it in time, and `tsequence_make` rejects the array.
-/

namespace TemporalSequence

variable {V B : Type} [DecidableEq V]

/-! ## Joining step sequences -/

/-- Two step float sequences touching at a shared instant, with the value before the
shared instant different from it and collinear end points, are joined by
`tsequencearr_normalize` into one sequence that keeps the value before the shared
instant at the shared timestamp. -/
theorem tsequencearr_normalize_joins_collinear_step (ε : ℚ) (bx : BBoxOps ℚ B)
    {seq1 seq2 : TSequence ℚ B} {pre post : List (TInstant ℚ)} {a b c d : TInstant ℚ}
    (hwf1 : seq1.WellFormed) (hwf2 : seq2.WellFormed) (hstep : seq1.linear = false)
    (h1 : seq1.instants = pre ++ [a, b]) (h2 : seq2.instants = c :: d :: post)
    (hadj : seq1.period.upper = seq2.period.lower) (hinc : seq1.period.upperInc = true)
    (hbc : b.value = c.value) (hab : a.value ≠ b.value)
    (hcol : datumCollinear (tfloat ε) a.value c.value d.value a.t c.t d.t = true) :
    ∃ seq, tsequencearrNormalize (tfloat ε) bx [seq1, seq2] = [seq] ∧
      seq1.valueAt (tfloat ε) b.t = some b.value ∧ seq.valueAt (tfloat ε) b.t = some a.value := by
  have hs1 : (pre ++ [a, b]).Pairwise fun x y => x.t < y.t := h1 ▸ chain'_t_iff_pairwise.mp hwf1.increasing
  have hs2 : (c :: d :: post).Pairwise fun x y => x.t < y.t := h2 ▸ chain'_t_iff_pairwise.mp hwf2.increasing
  have hab_t : a.t < b.t := List.rel_of_pairwise_cons (List.pairwise_append.mp hs1).2.1 (by simp)
  have hcd_t : c.t < d.t := List.rel_of_pairwise_cons hs2 (by simp)
  have hlast : (pre ++ [a, b]).getLast? = some b := by
    rw [show pre ++ [a, b] = (pre ++ [a]) ++ [b] by simp, List.getLast?_concat]
  -- the period of `seq1` ends at `b`, the one of `seq2` starts at `c`
  have hupper1 : seq1.period.upper = b.t := by rw [hwf1.period]; simp [periodOf, lastT, h1, hlast]
  have hlower2 : seq2.period.lower = c.t := by rw [hwf2.period]; simp [periodOf, h2]
  have hlower1 : seq1.period.lower ≤ a.t := by
    rw [hwf1.period]
    exact firstT_le_of_getElem? (h1 ▸ hs1)
      (by rw [h1, List.getElem?_append_right le_rfl]; simp : seq1.instants[pre.length]? = some a)
  have hupper2 : d.t ≤ seq2.period.upper := by
    rw [hwf2.period]
    exact le_lastT_of_getElem? (h2 ▸ hs2) (by simp [h2] : seq2.instants[1]? = some d)
  have hflags : tsequencearrJoinFlags (tfloat ε) false seq1 seq2 = some (true, true) := by
    have hl2 : lastTwo? (pre ++ [a, b]) = some (a, b) := by
      rw [lastTwo?_append_of_two_le _ (by simp)]; rfl
    have hac : a.value ≠ c.value := hbc ▸ hab
    simp [tsequencearrJoinFlags, h1, h2, hlast, hl2, hadj, hinc, hbc, hac, hcol]
  refine ⟨tsequenceJoin bx seq1 seq2 true true,
    by simp only [tsequencearrNormalize, hstep, tsequencearrNormalizeLoop, hflags], ?_, ?_⟩
  · -- the first sequence takes `b` at its upper bound
    have hmem : containsPeriodTimestamp seq1.period b.t = true := by
      simp [containsPeriodTimestamp, hupper1, hinc, show seq1.period.lower < b.t by omega]
    simp only [TSequence.valueAt, hmem, if_true, h1]
    rw [show pre ++ [a, b] = (pre ++ [a]) ++ [b] by simp]
    exact instantsValueAt_append_last (by simpa using hs1)
  · -- the joined sequence keeps `a` until `d`
    have hs : (pre ++ a :: d :: post).Pairwise fun x y => x.t < y.t := by
      rw [← List.singleton_append, ← List.append_assoc, List.pairwise_append]
      refine ⟨hs1.sublist ((List.singleton_sublist.mpr (List.mem_cons_self _ _)).append_left pre),
        hs2.of_cons, fun x hx y hy => ?_⟩
      have hxa : x.t ≤ a.t := by
        rcases List.mem_append.mp hx with hx | hx
        · exact ((List.pairwise_append.mp hs1).2.2 x hx a (by simp)).le
        · rw [List.mem_singleton.mp hx]
      have hdy : d.t ≤ y.t := head_le_of_mem hs2.of_cons hy
      omega
    have hmem : containsPeriodTimestamp (tsequenceJoin bx seq1 seq2 true true).period b.t = true := by
      simp [tsequenceJoin, containsPeriodTimestamp, show seq1.period.lower < b.t by omega,
        show b.t < seq2.period.upper by omega]
    have hinst : (tsequenceJoin bx seq1 seq2 true true).instants = pre ++ a :: d :: post := by
      simp [tsequenceJoin, h1, h2, List.dropLast_append_cons]
    simp only [TSequence.valueAt, hmem, if_true, hinst, show (tsequenceJoin bx seq1 seq2 true true).linear = false from hstep]
    rw [instantsValueAt_append_cons hs hab_t.le, instantsValueAt_cons_cons,
      if_pos (by omega), if_pos hab_t.le, tsequenceValueAtTimestamp1_step (by omega)]

/-- The valid step float sequences `[0@0, 1@1]` and `[1@1, 2@2]` are joined into
`[0@0, 2@2]`, which takes 0 at timestamp 1 where both take 1. -/
theorem tsequencearr_normalize_joins_collinear_step_floats :
    (⟨[⟨0, 0⟩, ⟨1, 1⟩], ⟨0, 1, true, true⟩, false, ⟨0, 1, 0, 1⟩⟩ : TSequence ℚ TBox).Valid
      (tfloat (1 / 100000)) (tnumberBBox id) ∧
    (⟨[⟨1, 1⟩, ⟨2, 2⟩], ⟨1, 2, true, true⟩, false, ⟨1, 2, 1, 2⟩⟩ : TSequence ℚ TBox).Valid
      (tfloat (1 / 100000)) (tnumberBBox id) ∧
    datumCollinear (tfloat (1 / 100000)) 0 1 2 0 1 2 = true ∧
    ∃ seq, tsequencearrNormalize (tfloat (1 / 100000)) (tnumberBBox id)
        [⟨[⟨0, 0⟩, ⟨1, 1⟩], ⟨0, 1, true, true⟩, false, ⟨0, 1, 0, 1⟩⟩,
          ⟨[⟨1, 1⟩, ⟨2, 2⟩], ⟨1, 2, true, true⟩, false, ⟨1, 2, 1, 2⟩⟩] = [seq] ∧
      TSequence.valueAt (tfloat (1 / 100000))
        (⟨[⟨0, 0⟩, ⟨1, 1⟩], ⟨0, 1, true, true⟩, false, ⟨0, 1, 0, 1⟩⟩ : TSequence ℚ TBox) 1 =
          some 1 ∧
      seq.valueAt (tfloat (1 / 100000)) 1 = some 0 := by
  have hv1 : (⟨[⟨0, 0⟩, ⟨1, 1⟩], ⟨0, 1, true, true⟩, false, ⟨0, 1, 0, 1⟩⟩ :
      TSequence ℚ TBox).Valid (tfloat (1 / 100000)) (tnumberBBox id) := by
    simp [TSequence.valid_iff, lastTwo?, periodOf, lastT, tinstantarrNormalize,
      tinstantarrNormalizeLoop, tnumberBBox, tboxExpand]
  have hv2 : (⟨[⟨1, 1⟩, ⟨2, 2⟩], ⟨1, 2, true, true⟩, false, ⟨1, 2, 1, 2⟩⟩ :
      TSequence ℚ TBox).Valid (tfloat (1 / 100000)) (tnumberBBox id) := by
    simp [TSequence.valid_iff, lastTwo?, periodOf, lastT, tinstantarrNormalize,
      tinstantarrNormalizeLoop, tnumberBBox, tboxExpand]
  have hcol : datumCollinear (tfloat (1 / 100000)) 0 1 2 0 1 2 = true := by
    simp [datumCollinear, tfloat, floatCollinear]
  exact ⟨hv1, hv2, hcol, tsequencearr_normalize_joins_collinear_step (1 / 100000) (tnumberBBox id)
    hv1.wellFormed hv2.wellFormed rfl (show _ = ([] : List (TInstant ℚ)) ++ [⟨0, 0⟩, ⟨1, 1⟩] from rfl)
    (show _ = (⟨1, 1⟩ : TInstant ℚ) :: ⟨2, 2⟩ :: [] from rfl) rfl rfl rfl (by norm_num) hcol⟩

/-! ## The shared buffer of the merge -/

section Buffer

omit [DecidableEq V]

lemma writeInstants_apply (buf : ℕ → Option (TInstant V)) (m : ℕ) (instants : List (TInstant V))
    (i : ℕ) :
    writeInstants buf m instants i =
      if m ≤ i ∧ i < m + instants.length then instants[i - m]? else buf i := by
  induction instants generalizing buf m with
  | nil => simp only [writeInstants, List.length_nil, add_zero]; split_ifs <;> first | rfl | omega
  | cons inst rest ih =>
    rw [writeInstants, ih]
    rcases lt_trichotomy i m with h | rfl | h
    · simp [Function.update_noteq h.ne, show ¬m + 1 ≤ i by omega, show ¬m ≤ i by omega]
    · simp
    · rw [Function.update_noteq h.ne', show i - m = i - (m + 1) + 1 by omega, List.getElem?_cons_succ,
        List.length_cons]
      split_ifs <;> first | rfl | omega

lemma readInstants_eq_some {buf : ℕ → Option (TInstant V)} :
    ∀ {m : ℕ} {instants : List (TInstant V)}, (∀ j < instants.length, buf (m + j) = instants[j]?) →
      readInstants buf m instants.length = some instants
  | _, [], _ => rfl
  | m, inst :: rest, h => by
    have hinst : buf m = some inst := by simpa using h 0 (by simp)
    have hrest : readInstants buf (m + 1) rest.length = some rest :=
      readInstants_eq_some fun j hj => by
        simpa [Nat.add_assoc, Nat.add_comm 1 j] using h (j + 1) (by simpa using hj)
    simp [readInstants, hinst, hrest]

lemma writeInstants_append (buf : ℕ → Option (TInstant V)) (m : ℕ) (l1 l2 : List (TInstant V)) :
    writeInstants buf m (l1 ++ l2) = writeInstants (writeInstants buf m l1) (m + l1.length) l2 := by
  induction l1 generalizing buf m with
  | nil => rfl
  | cons inst rest ih =>
    rw [List.cons_append, writeInstants, writeInstants, ih, List.length_cons,
      show m + 1 + rest.length = m + (rest.length + 1) by omega]

lemma update_writeInstants_dropLast (buf : ℕ → Option (TInstant V)) (m : ℕ)
    {l : List (TInstant V)} (hl : l ≠ []) :
    Function.update (writeInstants buf m l.dropLast) (m + l.dropLast.length) l.getLast? =
      writeInstants buf m l := by
  obtain ⟨init, last, rfl⟩ := (List.eq_nil_or_concat l).resolve_left hl
  simp [writeInstants_append, writeInstants]

lemma readInstants_writeInstants_concat {buf : ℕ → Option (TInstant V)} {m : ℕ}
    {l : List (TInstant V)} {x : TInstant V} (hx : buf (m + l.length) = some x) :
    readInstants (writeInstants buf m l) m (l.length + 1) = some (l ++ [x]) := by
  rw [show l.length + 1 = (l ++ [x]).length by simp]
  refine readInstants_eq_some fun j hj => ?_
  rw [writeInstants_apply]
  rcases Nat.lt_succ_iff_lt_or_eq.mp (by simpa using hj) with hj | rfl
  · simp [hj, List.getElem?_append_left hj]
  · simp [hx]

lemma groupBuffer_eq_writeInstants_tail (buf : ℕ → Option (TInstant V))
    (instants : List (TInstant V)) (upperInc : Bool) (h : 2 ≤ instants.length) :
    (if (!upperInc) = true then
        Function.update (writeInstants buf 0 ((instants.take (if upperInc = true then
          instants.length else instants.length - 1)).drop 1))
          ((instants.take (if upperInc = true then instants.length
            else instants.length - 1)).drop 1).length instants.getLast?
      else writeInstants buf 0 ((instants.take (if upperInc = true then instants.length
        else instants.length - 1)).drop 1)) =
      writeInstants buf 0 instants.tail := by
  match instants, h with
  | first :: next :: rest, _ =>
    cases upperInc
    · simp only [Bool.not_false, if_true, Bool.false_eq_true, if_false, List.tail_cons,
        ← List.dropLast_eq_take, List.dropLast_cons₂, List.drop_one, List.tail_cons,
        List.getLast?_cons_cons, zero_add]
      rw [← zero_add (next :: rest).dropLast.length]
      exact update_writeInstants_dropLast buf 0 (List.cons_ne_nil _ _)
    · simp

end Buffer

lemma tsequenceMake_of_not_chain' {bt : BaseType V} {bx : BBoxOps V B}
    {instants : List (TInstant V)} {lowerInc upperInc linear normalize : Bool} (hne : instants ≠ [])
    (h : ¬instants.Chain' fun inst1 inst2 => inst1.t < inst2.t) :
    tsequenceMake bt bx instants lowerInc upperInc linear normalize =
      .error "Timestamps for temporal value must be increasing" := by
  simp [tsequenceMake, tsequenceMakeCheck, ensureValidTinstantarr, hne, h, bind, Except.bind,
    pure, Except.pure, throw, throwThe, MonadExceptOf.throw]

/-! ## Merging two sequences -/

/-- Merging a sequence with inclusive bounds and a later sequence with an exclusive
lower bound and no more instants than the first: the second group of the second pass
does not copy the first instant of the second sequence, so the array it hands to
`tsequence_make` ends with an instant of the first sequence left in the buffer, and
the merge fails. -/
theorem tsequence_merge_exclusive_lower_error (bt : BaseType V) (bx : BBoxOps V B)
    {seq1 seq2 : TSequence V B} (hwf1 : seq1.WellFormed) (hwf2 : seq2.WellFormed)
    (hlin : seq1.linear = seq2.linear) (hlow1 : seq1.period.lowerInc = true)
    (hup1 : seq1.period.upperInc = true) (hlow2 : seq2.period.lowerInc = false)
    (hbefore : lastT seq1.instants < firstT seq2.instants)
    (hlen : seq2.instants.length ≤ seq1.instants.length) :
    tsequenceMerge bt bx seq1 seq2 = .error "Timestamps for temporal value must be increasing" := by
  have hs1 := chain'_t_iff_pairwise.mp hwf1.increasing
  have hs2 := chain'_t_iff_pairwise.mp hwf2.increasing
  obtain ⟨f1, r1, h1⟩ := List.exists_cons_of_ne_nil hwf1.nonempty
  obtain ⟨f2, r2, h2⟩ := List.exists_cons_of_ne_nil hwf2.nonempty
  -- an exclusive bound needs two instants
  have hr2 : r2 ≠ [] := by
    rintro rfl
    exact hwf2.instantBounds ⟨by simp [h2], by simp [hlow2]⟩
  obtain ⟨l1, hl1⟩ := Option.isSome_iff_exists.mp (List.getLast?_isSome.mpr hwf1.nonempty)
  have hl1t : l1.t = lastT seq1.instants := by simp [lastT, hl1]
  have hf2t : f2.t = firstT seq2.instants := by simp [h2]
  -- the array is already sorted
  have hsort : tsequencearrSort [seq1, seq2] = [seq1, seq2] := by
    have hle1 : firstT seq1.instants ≤ lastT seq1.instants :=
      le_lastT_of_getElem? hs1 (by simp [h1] : seq1.instants[0]? = some f1) |>.trans' (by simp [h1])
    have hlt : seq1.period.lower < seq2.period.lower := by
      rw [hwf1.period, hwf2.period]
      simp only [periodOf]
      omega
    simp [tsequencearrSort, List.insertionSort, List.orderedInsert, hlt]
  -- the first pass makes two groups
  have hcounts : tsequenceMergeCounts seq1 [seq2] [seq1.instants.length] =
      .ok [seq2.instants.length, seq1.instants.length] := by
    simp [tsequenceMergeCounts, hlin, hl1, h2, show ¬f2.t < l1.t by omega,
      show l1.t ≠ f2.t by omega, pure, Except.pure]
  -- the first group copies the first sequence whole
  have hn1 : 0 < seq1.instants.length := List.length_pos.mpr hwf1.nonempty
  have hcopy1 : tsequenceMergeCopy [seq1, seq2] seq1.instants.length [seq1, seq2].length
      (fun _ => none) 0 0 = (writeInstants (fun _ => none) 0 seq1.instants, seq1.instants.length, 1) := by
    simp [tsequenceMergeCopy, hlow1, hup1, hn1]
  have hread1 : readInstants (writeInstants (fun _ => none) 0 seq1.instants) 0 seq1.instants.length =
      some seq1.instants :=
    readInstants_eq_some fun j hj => by simp [writeInstants_apply, hj]
  obtain ⟨s1, hmake1⟩ : ∃ s, tsequenceMake bt bx seq1.instants seq1.period.lowerInc true seq1.linear
      true = .ok s :=
    ⟨_, tsequenceMake_eq_ok.mpr ⟨tsequenceMakeCheck_eq_ok.mpr ⟨hwf1.nonempty, hwf1.increasing,
      by simp [hlow1], by simp⟩, rfl⟩⟩
  -- the second group skips the first instant of the second sequence
  have hcopy2 : tsequenceMergeCopy [seq1, seq2] seq2.instants.length [seq1, seq2].length
      (writeInstants (fun _ => none) 0 seq1.instants) 0 1 =
      (writeInstants (writeInstants (fun _ => none) 0 seq1.instants) 0
        ((seq2.instants.take (if seq2.period.upperInc then seq2.instants.length
          else seq2.instants.length - 1)).drop 1),
        ((seq2.instants.take (if seq2.period.upperInc then seq2.instants.length
          else seq2.instants.length - 1)).drop 1).length, 2) := by
    simp [tsequenceMergeCopy, hlow2, h2]
  simp only [tsequenceMerge, tsequenceMergeArray, hsort, ite_self, List.head?_cons,
    List.drop_succ_cons, List.drop_zero, hcounts, bind, Except.bind, List.reverse_cons,
    List.reverse_nil, List.nil_append, List.singleton_append, tsequenceMergeBuild,
    List.getElem?_cons_zero, hcopy1, Nat.sub_self, hup1, Bool.not_true, Bool.false_eq_true,
    if_false, hread1, hmake1, List.getElem?_cons_succ, hcopy2, Nat.add_one_sub_one]
  -- the second group reads the instants of the second sequence after its first one, then
  -- the instant the first group left at the next position
  have hlen' : r2.length < seq1.instants.length := by simp [h2] at hlen; omega
  obtain ⟨x, hx⟩ : ∃ x, seq1.instants[r2.length]? = some x := ⟨_, List.getElem?_eq_getElem hlen'⟩
  have hx' : writeInstants (fun _ => none) 0 seq1.instants (0 + r2.length) = some x := by
    simp [writeInstants_apply, hlen', hx]
  rw [groupBuffer_eq_writeInstants_tail _ _ _ (by simpa [h2] using List.length_pos.mpr hr2), h2,
    List.tail_cons, List.length_cons, readInstants_writeInstants_concat hx']
  -- that instant comes before the last instant of the second sequence
  obtain ⟨l2, hl2⟩ := Option.isSome_iff_exists.mp (List.getLast?_isSome.mpr hr2)
  have hnot : ¬(r2 ++ [x]).Chain' fun a b => a.t < b.t := fun hc => by
    have hf2l2 := (List.pairwise_cons.mp (h2 ▸ hs2)).1 l2 (List.mem_of_getLast?_eq_some hl2)
    have hx1 := le_lastT_of_getElem? hs1 hx
    have := (List.chain'_append.mp hc).2.2 l2 hl2 x rfl
    omega
  simp only [tsequenceMake_of_not_chain' (by simp) hnot]

/-- Merging the linear temporal floats \[1@0, 2@1\] and (3@2, 4@3\], which touch at no
timestamp, fails. -/
theorem tsequence_merge_exclusive_lower_error_floats :
    (⟨[⟨1, 0⟩, ⟨2, 1⟩], ⟨0, 1, true, true⟩, true, ⟨1, 2, 0, 1⟩⟩ : TSequence ℚ TBox).Valid
      (tfloat (1 / 100000)) (tnumberBBox id) ∧
    (⟨[⟨3, 2⟩, ⟨4, 3⟩], ⟨2, 3, false, true⟩, true, ⟨3, 4, 2, 3⟩⟩ : TSequence ℚ TBox).Valid
      (tfloat (1 / 100000)) (tnumberBBox id) ∧
    tsequenceMerge (tfloat (1 / 100000)) (tnumberBBox id)
        ⟨[⟨1, 0⟩, ⟨2, 1⟩], ⟨0, 1, true, true⟩, true, ⟨1, 2, 0, 1⟩⟩
        ⟨[⟨3, 2⟩, ⟨4, 3⟩], ⟨2, 3, false, true⟩, true, ⟨3, 4, 2, 3⟩⟩ =
      .error "Timestamps for temporal value must be increasing" := by
  have hv1 : (⟨[⟨1, 0⟩, ⟨2, 1⟩], ⟨0, 1, true, true⟩, true, ⟨1, 2, 0, 1⟩⟩ :
      TSequence ℚ TBox).Valid (tfloat (1 / 100000)) (tnumberBBox id) := by
    simp [TSequence.valid_iff, lastTwo?, periodOf, lastT, tinstantarrNormalize,
      tinstantarrNormalizeLoop, tnumberBBox, tboxExpand]
  have hv2 : (⟨[⟨3, 2⟩, ⟨4, 3⟩], ⟨2, 3, false, true⟩, true, ⟨3, 4, 2, 3⟩⟩ :
      TSequence ℚ TBox).Valid (tfloat (1 / 100000)) (tnumberBBox id) := by
    simp [TSequence.valid_iff, lastTwo?, periodOf, lastT, tinstantarrNormalize,
      tinstantarrNormalizeLoop, tnumberBBox, tboxExpand]
    norm_num
  exact ⟨hv1, hv2, tsequence_merge_exclusive_lower_error _ _ hv1.wellFormed hv2.wellFormed rfl rfl
    rfl rfl (by simp [lastT]) (by simp)⟩

end TemporalSequence
