import TemporalSequence.Merge
import TemporalSequence.Proofs.Pieces
import TemporalSequence.Proofs.RestrictPeriodset

/-!
# Normalizing an array of sequences keeps what it denotes

`tsequencearr_normalize` joins a sequence to the one built so far when the two meet at
a shared timestamp, dropping the last instant of the first, the first instant of the
second, or both. Each join keeps the values of the two sequences, and the loop keeps
what the whole array denotes, as long as the collinearity test of the base type
accepts a middle value only where the segment through the two outer instants passes,
with the interpolation of the sequences (`BaseType.CollinearSound`). With linear
interpolation this holds for floats compared exactly. With step interpolation it holds
for the base types whose test is always false (integers, booleans, texts), and not for
floats: there a join can carry the value before the shared timestamp past it.
-/

namespace TemporalSequence

variable {V B : Type} [DecidableEq V]

/-- The collinearity test of `bt` accepts a middle value at `t2` only when the segment
from `inst1` to `inst3`, with interpolation `linear`, takes that value at `t2`; with
step interpolation, only the value of `inst1`. -/
def BaseType.CollinearSound (bt : BaseType V) (linear : Bool) : Prop :=
  ∀ (inst1 inst3 : TInstant V) (value2 : V) (t2 : ℤ), inst1.t < t2 → t2 < inst3.t →
    datumCollinear bt inst1.value value2 inst3.value inst1.t t2 inst3.t = true →
      value2 = tsequenceValueAtTimestamp1 bt inst1 inst3 linear t2

theorem tfloat_collinearSound : (tfloat 0).CollinearSound true := by
  intro inst1 inst3 value2 t2 h12 h23 hcol
  simp only [datumCollinear, floatCollinear, tfloat, abs_nonpos_iff, sub_eq_zero,
    decide_eq_true_eq] at hcol
  by_cases hv : inst1.value = inst3.value
  · rw [tsequenceValueAtTimestamp1_const hv, hcol, hv, sub_self, zero_mul, add_zero]
  · rw [tsequenceValueAtTimestamp1_eq_interpolate (tfloat_lawful 0) hv h12.le h23.le, hcol]
    rfl

theorem stepOnly_collinearSound (linear : Bool) : (stepOnly : BaseType V).CollinearSound linear := by
  intro inst1 inst3 value2 t2 _ _ hcol
  simp [datumCollinear, stepOnly] at hcol

/-! ## Values of instant arrays around an instant -/

section Arrays

variable {bt : BaseType V} {linear : Bool}

lemma instantsValueAt_append_cons_of_lt {pre rest : List (TInstant V)} {inst : TInstant V}
    {t : ℤ} (hs : (pre ++ inst :: rest).Pairwise fun a b => a.t < b.t) (ht : t < inst.t) :
    instantsValueAt bt linear (pre ++ inst :: rest) t = instantsValueAt bt linear (pre ++ [inst]) t := by
  induction pre with
  | nil => simp [instantsValueAt_of_lt hs ht, instantsValueAt, ht.ne]
  | cons a pre ih =>
    match pre, hs, ih with
    | [], _, _ => simp only [List.nil_append, List.cons_append, instantsValueAt_cons_cons, if_pos ht]
    | b :: pre, hs, ih =>
      simp only [List.cons_append, instantsValueAt_cons_cons]
      by_cases hb : t < b.t
      · simp only [hb, if_true]
      · simpa only [hb, if_false, List.cons_append] using ih hs.of_cons

lemma instantsValueAt_append_pair_of_lt {pre : List (TInstant V)} {a b : TInstant V} {t : ℤ}
    (hs : (pre ++ [a, b]).Pairwise fun a b => a.t < b.t) (ht : t < b.t) :
    instantsValueAt bt linear (pre ++ [a, b]) t =
      if a.t ≤ t then some (tsequenceValueAtTimestamp1 bt a b linear t)
      else instantsValueAt bt linear (pre ++ [a]) t := by
  split_ifs with hat
  · rw [instantsValueAt_append_cons hs hat, instantsValueAt_cons_cons, if_pos ht, if_pos hat]
  · exact instantsValueAt_append_cons_of_lt hs (not_le.mp hat)

end Arrays

/-! ## Joining two sequences -/

lemma containsPeriodTimestamp_eq_false_of_upper_lt {p : Period} {t : ℤ} (ht : p.upper < t) :
    containsPeriodTimestamp p t = false := by
  cases h : containsPeriodTimestamp p t
  · rfl
  · exact absurd (bounds_of_containsPeriodTimestamp h).2 (not_le.mpr ht)

lemma Period.Valid.contains_lower {p : Period} (hv : p.Valid) :
    containsPeriodTimestamp p p.lower = p.lowerInc := by
  rcases hv with h | ⟨h, hl, hu⟩ <;> simp [containsPeriodTimestamp, *]

lemma Period.Valid.contains_upper {p : Period} (hv : p.Valid) :
    containsPeriodTimestamp p p.upper = p.upperInc := by
  rcases hv with h | ⟨h, hl, hu⟩ <;> simp [containsPeriodTimestamp, *]

lemma containsPeriodTimestamp_join {p1 p2 : Period} (hv1 : p1.Valid) (hv2 : p2.Valid)
    (hadj : p1.upper = p2.lower) (hinc : p1.upperInc = true ∨ p2.lowerInc = true) (t : ℤ) :
    containsPeriodTimestamp ⟨p1.lower, p2.upper, p1.lowerInc, p2.upperInc⟩ t =
      (containsPeriodTimestamp p1 t || containsPeriodTimestamp p2 t) := by
  obtain ⟨l1, u1, i1, j1⟩ := p1
  obtain ⟨l2, u2, i2, j2⟩ := p2
  simp only [Period.Valid] at hv1 hv2 hadj hinc
  subst hadj
  rw [Bool.eq_iff_iff, Bool.or_eq_true, containsPeriodTimestamp_iff, containsPeriodTimestamp_iff,
    containsPeriodTimestamp_iff]
  cases i1 <;> cases j1 <;> cases i2 <;> cases j2 <;> simp at hv1 hv2 hinc ⊢ <;> omega

section Join

variable {bt : BaseType V} {seq1 seq2 j : TSequence V B}

/-- A sequence over the period joining `seq1` and `seq2`, whose instants take the values
of those of `seq1` before the shared timestamp and of those of `seq2` from it on, takes
the values of the two sequences. -/
lemma valueAt_of_join (hwf1 : seq1.WellFormed) (hwf2 : seq2.WellFormed)
    (hadj : seq1.period.upper = seq2.period.lower)
    (hinc : seq1.period.upperInc = true ∨ seq2.period.lowerInc = true)
    (hper : j.period =
      ⟨seq1.period.lower, seq2.period.upper, seq1.period.lowerInc, seq2.period.upperInc⟩)
    (hlin1 : seq1.linear = j.linear) (hlin2 : seq2.linear = j.linear)
    (hfront : ∀ t < seq2.period.lower,
      instantsValueAt bt j.linear j.instants t = instantsValueAt bt j.linear seq1.instants t)
    (hback : ∀ t, seq2.period.lower ≤ t →
      instantsValueAt bt j.linear j.instants t = instantsValueAt bt j.linear seq2.instants t)
    (hshared : seq1.period.upperInc = true →
      instantsValueAt bt j.linear seq1.instants seq2.period.lower =
        instantsValueAt bt j.linear seq2.instants seq2.period.lower)
    (t : ℤ) : j.valueAt bt t = (seq1.valueAt bt t).or (seq2.valueAt bt t) := by
  have hc := containsPeriodTimestamp_join hwf1.periodValid hwf2.periodValid hadj hinc t
  rw [← hper] at hc
  simp only [TSequence.valueAt, hc, hlin1, hlin2]
  rcases lt_trichotomy t seq2.period.lower with h | rfl | h
  · rw [containsPeriodTimestamp_eq_false_of_lt_lower h, hfront t h]
    cases containsPeriodTimestamp seq1.period t <;> simp
  · rw [hwf2.periodValid.contains_lower, ← hadj, hwf1.periodValid.contains_upper, hadj,
      hback _ le_rfl]
    cases hu : seq1.period.upperInc
    · simp [hinc.resolve_left (by simp [hu])]
    · rw [hshared hu]
      cases seq2.period.lowerInc <;> cases instantsValueAt bt j.linear seq2.instants seq2.period.lower <;> simp
  · rw [containsPeriodTimestamp_eq_false_of_upper_lt (hadj ▸ h), hback t h.le]
    cases containsPeriodTimestamp seq2.period t <;> simp

end Join

/-! ## The tests of `tsequencearr_normalize` -/

section Flags

variable {bt : BaseType V} {linear : Bool} {seq1 seq2 : TSequence V B}

/-- What `tsequencearr_normalize` checks before joining `seq2` to `seq1` with the flags
`(removelast, removefirst)`: the sequences meet at a timestamp one of them contains, and
either the segments around it are redundant, or the first is a step sequence open at its
end, or the two sides take the same value there. -/
lemma tsequencearrJoinFlags_eq_some {last1 first1 : TInstant V} {rl rf : Bool}
    (h1 : seq1.instants.getLast? = some last1) (h2 : seq2.instants.head? = some first1)
    (h : tsequencearrJoinFlags bt linear seq1 seq2 = some (rl, rf)) :
    (seq1.period.upper = seq2.period.lower ∧
        (seq1.period.upperInc || seq2.period.lowerInc) = true) ∧
      ((rl = true ∧ rf = true ∧ ∃ last2 first2, (lastTwo? seq1.instants).map Prod.fst = some last2 ∧
          seq2.instants[1]? = some first2 ∧
          ((!linear && last2.value == last1.value && last1.value == first1.value) ||
            (last2.value == last1.value && last1.value == first1.value &&
              first1.value == first2.value) ||
            (last1.value == first1.value &&
              datumCollinear bt last2.value first1.value first2.value last2.t first1.t first2.t)) =
            true) ∨
        (rl = true ∧ rf = false ∧ linear = false ∧ seq1.period.upperInc = false) ∨
        (rl = false ∧ rf = true ∧ last1.value = first1.value)) := by
  simp only [tsequencearrJoinFlags, h1, h2] at h
  rcases h3 : (lastTwo? seq1.instants).map Prod.fst with _ | last2 <;>
    rcases h4 : seq2.instants[1]? with _ | first2 <;> simp only [h3, h4] at h <;>
    split_ifs at h <;>
    simp only [Option.some.injEq, Prod.mk.injEq, reduceCtorEq, Bool.and_eq_true, beq_iff_eq,
      Bool.and_false, Bool.false_eq_true, and_false, Bool.not_eq_true'] at * <;>
    aesop

/-- The redundancy test of `tsequencearr_normalize` passes only when the two sides take
the same value at the shared timestamp, on the segment from the instant before it to the
instant after it. -/
lemma eq_segment_of_redundant (hcol : bt.CollinearSound linear)
    {last2 last1 first1 first2 : TInstant V} (h21 : last2.t < first1.t) (h12 : first1.t < first2.t)
    (h : ((!linear && last2.value == last1.value && last1.value == first1.value) ||
      (last2.value == last1.value && last1.value == first1.value && first1.value == first2.value) ||
      (last1.value == first1.value &&
        datumCollinear bt last2.value first1.value first2.value last2.t first1.t first2.t)) = true) :
    last1.value = first1.value ∧
      last1.value = tsequenceValueAtTimestamp1 bt last2 first2 linear first1.t := by
  simp only [Bool.or_eq_true, Bool.and_eq_true, beq_iff_eq, Bool.not_eq_true'] at h
  rcases h with (⟨⟨rfl, h21v⟩, h1v⟩ | ⟨⟨h21v, h1v⟩, h12v⟩) | ⟨h1v, hc⟩
  · exact ⟨h1v, by rw [tsequenceValueAtTimestamp1_step h12, h21v]⟩
  · exact ⟨h1v, by rw [tsequenceValueAtTimestamp1_const (h21v.trans (h1v.trans h12v)), h21v]⟩
  · exact ⟨h1v, h1v.trans (hcol last2 first2 first1.value first1.t h21 h12 hc)⟩

end Flags

/-! ## Joined arrays -/

/-- The instants of a sequence joining `seq1` and `seq2` at the timestamp where they meet:
a well-formed array spanning the two periods that takes the values of `seq1` before that
timestamp and of `seq2` from it on. -/
structure JoinedArray (bt : BaseType V) (linear : Bool) (seq1 seq2 : TSequence V B)
    (instants : List (TInstant V)) : Prop where
  nonempty : instants ≠ []
  increasing : instants.Chain' fun inst1 inst2 => inst1.t < inst2.t
  firstT_eq : firstT instants = seq1.period.lower
  lastT_eq : lastT instants = seq2.period.upper
  instantBounds : instants.length = 1 →
    seq1.period.lowerInc = true ∧ seq2.period.upperInc = true
  endValue : ¬(!linear ∧ (lastTwo? instants).any (fun p => p.1.value ≠ p.2.value) ∧
    !seq2.period.upperInc)
  front : ∀ t < seq2.period.lower,
    instantsValueAt bt linear instants t = instantsValueAt bt linear seq1.instants t
  back : ∀ t, seq2.period.lower ≤ t →
    instantsValueAt bt linear instants t = instantsValueAt bt linear seq2.instants t
  shared : seq1.period.upperInc = true →
    instantsValueAt bt linear seq1.instants seq2.period.lower =
      instantsValueAt bt linear seq2.instants seq2.period.lower

/-- A join of `seq1` and `seq2` at a timestamp one of them contains, with a joined array
of instants, is well formed, covers the two periods and takes the values of the two
sequences. -/
lemma tsequenceJoin_of_joinedArray {bt : BaseType V} {bx : BBoxOps V B} {linear : Bool}
    {seq1 seq2 : TSequence V B} {rl rf : Bool} (hwf1 : seq1.WellFormed) (hwf2 : seq2.WellFormed)
    (hl1 : seq1.linear = linear) (hl2 : seq2.linear = linear)
    (hadj : seq1.period.upper = seq2.period.lower)
    (hinc : seq1.period.upperInc = true ∨ seq2.period.lowerInc = true)
    (hj : JoinedArray bt linear seq1 seq2 (tsequenceJoin bx seq1 seq2 rl rf).instants) :
    (tsequenceJoin bx seq1 seq2 rl rf).WellFormed ∧ (tsequenceJoin bx seq1 seq2 rl rf).linear = linear ∧
      (∀ t, containsPeriodTimestamp (tsequenceJoin bx seq1 seq2 rl rf).period t =
        (containsPeriodTimestamp seq1.period t || containsPeriodTimestamp seq2.period t)) ∧
      ∀ t, (tsequenceJoin bx seq1 seq2 rl rf).valueAt bt t = (seq1.valueAt bt t).or (seq2.valueAt bt t) := by
  have hlin : (tsequenceJoin bx seq1 seq2 rl rf).linear = linear := hl1
  refine ⟨⟨hj.nonempty, hj.increasing, ?_, fun h => ?_, by rw [hlin]; exact hj.endValue⟩, hlin,
    containsPeriodTimestamp_join hwf1.periodValid hwf2.periodValid hadj hinc,
    valueAt_of_join hwf1 hwf2 hadj hinc rfl (hl1.trans hlin.symm) (hl2.trans hlin.symm) ?_ ?_ ?_⟩
  · change _ = periodOf (tsequenceJoin bx seq1 seq2 rl rf).instants _ _
    rw [periodOf, hj.firstT_eq, hj.lastT_eq]
    rfl
  · obtain ⟨h1, h2⟩ := hj.instantBounds h.1
    simp [tsequenceJoin, h1, h2] at h
  · rw [hlin]; exact hj.front
  · rw [hlin]; exact hj.back
  · rw [hlin]; exact hj.shared

/-! ## The three joins -/

omit [DecidableEq V] in
lemma firstT_append_cons (pre : List (TInstant V)) (inst : TInstant V)
    (rest rest' : List (TInstant V)) : firstT (pre ++ inst :: rest) = firstT (pre ++ inst :: rest') := by
  cases pre <;> rfl

omit [DecidableEq V] in
lemma lastT_append_of_ne_nil (pre : List (TInstant V)) {rest : List (TInstant V)} (h : rest ≠ []) :
    lastT (pre ++ rest) = lastT rest := by
  simp [lastT, List.getLast?_append_of_ne_nil _ h]

omit [DecidableEq V] in
lemma pairwise_append_cons_of_lt {pre rest : List (TInstant V)} {last : TInstant V}
    (hs1 : (pre ++ [last]).Pairwise fun a b => a.t < b.t)
    (hs2 : rest.Pairwise fun a b => a.t < b.t) (h : ∀ y ∈ rest, last.t < y.t) :
    (pre ++ last :: rest).Pairwise fun a b => a.t < b.t := by
  rw [← List.singleton_append, ← List.append_assoc, List.pairwise_append]
  refine ⟨hs1, hs2, fun x hx y hy => ?_⟩
  have hx' : x.t ≤ last.t := by
    rcases List.mem_append.mp hx with hx | hx
    · exact ((List.pairwise_append.mp hs1).2.2 x hx last (List.mem_singleton_self _)).le
    · rw [List.mem_singleton.mp hx]
  exact hx'.trans_lt (h y hy)

section Cases

variable {bt : BaseType V} {bx : BBoxOps V B} {linear : Bool} {seq1 seq2 : TSequence V B}
  {last1 first1 : TInstant V}

lemma upper_eq_of_getLast? (hwf : seq1.WellFormed) (h : seq1.instants.getLast? = some last1) :
    seq1.period.upper = last1.t := by
  rw [hwf.period]
  simp [periodOf, lastT, h]

lemma lower_eq_of_head? (hwf : seq2.WellFormed) (h : seq2.instants.head? = some first1) :
    seq2.period.lower = first1.t := by
  rw [hwf.period]
  simp [periodOf, firstT, h]

lemma TSequence.WellFormed.lower_eq (hwf : seq1.WellFormed) :
    seq1.period.lower = firstT seq1.instants := by
  rw [hwf.period]
  rfl

lemma TSequence.WellFormed.upper_eq (hwf : seq1.WellFormed) :
    seq1.period.upper = lastT seq1.instants := by
  rw [hwf.period]
  rfl

lemma TSequence.WellFormed.bounds_of_length_one (hwf : seq1.WellFormed)
    (h : seq1.instants.length = 1) : seq1.period.lowerInc = true ∧ seq1.period.upperInc = true := by
  obtain ⟨_, -, hper⟩ := hwf.period_of_length_one h
  simp [hper]

lemma endValue_of_suffix (hwf2 : seq2.WellFormed) (hl2 : seq2.linear = linear)
    {instants : List (TInstant V)}
    (hsuf : 2 ≤ seq2.instants.length → lastTwo? instants = lastTwo? seq2.instants) :
    ¬(!linear ∧ (lastTwo? instants).any (fun p => p.1.value ≠ p.2.value) ∧
      !seq2.period.upperInc) := by
  by_cases hlen : 2 ≤ seq2.instants.length
  · rw [hsuf hlen, ← hl2]
    exact hwf2.endValue
  · have hpos := List.length_pos.mpr hwf2.nonempty
    simp [(hwf2.bounds_of_length_one (by omega)).2]

/-- Joining without the first instant of `seq2`, which takes the last value of `seq1`. -/
lemma joinedArray_removeFirst (hwf1 : seq1.WellFormed) (hwf2 : seq2.WellFormed)
    (hl2 : seq2.linear = linear) (h1 : seq1.instants.getLast? = some last1)
    (h2 : seq2.instants.head? = some first1) (hadj : seq1.period.upper = seq2.period.lower)
    (hv : last1.value = first1.value) :
    JoinedArray bt linear seq1 seq2 (tsequenceJoin bx seq1 seq2 false true).instants := by
  have hs1 := chain'_t_iff_pairwise.mp hwf1.increasing
  have hs2 := chain'_t_iff_pairwise.mp hwf2.increasing
  obtain ⟨A, hA⟩ := List.getLast?_eq_some_iff.mp h1
  obtain ⟨C, hC⟩ := List.head?_eq_some_iff.mp h2
  have hc : seq2.period.lower = last1.t := by rw [← hadj, upper_eq_of_getLast? hwf1 h1]
  obtain rfl : last1 = first1 := by
    have := lower_eq_of_head? hwf2 h2
    cases last1
    cases first1
    simp_all
  rw [hA] at hs1
  rw [hC] at hs2
  have hs : (A ++ last1 :: C).Pairwise fun a b => a.t < b.t :=
    pairwise_append_cons_of_lt hs1 hs2.of_cons fun y hy => List.rel_of_pairwise_cons hs2 hy
  have hL : (tsequenceJoin bx seq1 seq2 false true).instants = A ++ seq2.instants := by
    simp [tsequenceJoin, hA, hC]
  rw [hL]
  refine ⟨by simp [hC], chain'_t_iff_pairwise.mpr (hC ▸ hs), ?_, ?_, fun hlen => ?_,
    endValue_of_suffix hwf2 hl2 fun h => lastTwo?_append_of_two_le A h, fun t ht => ?_,
    fun t ht => ?_, fun _ => ?_⟩
  · rw [hwf1.lower_eq, hA, hC, firstT_append_cons A last1 C []]
  · rw [hwf2.upper_eq]
    exact lastT_append_of_ne_nil A hwf2.nonempty
  · rw [hC, List.length_append, List.length_cons] at hlen
    exact ⟨(hwf1.bounds_of_length_one (by rw [hA, List.length_append, List.length_singleton]; omega)).1,
      (hwf2.bounds_of_length_one (by rw [hC, List.length_cons]; omega)).2⟩
  · rw [hC, instantsValueAt_append_cons_of_lt hs (hc ▸ ht), hA]
  · rw [hC, instantsValueAt_append_cons hs (hc ▸ ht)]
  · rw [hc, hA, hC, instantsValueAt_append_last hs1, instantsValueAt_head hs2]

/-- Joining a step sequence open at its end without its last instant, which the step
interpolation never shows. -/
lemma joinedArray_removeLast (hwf1 : seq1.WellFormed) (hwf2 : seq2.WellFormed)
    (hl2 : seq2.linear = false) (h1 : seq1.instants.getLast? = some last1)
    (h2 : seq2.instants.head? = some first1) (hadj : seq1.period.upper = seq2.period.lower)
    (hu1 : seq1.period.upperInc = false) :
    JoinedArray bt false seq1 seq2 (tsequenceJoin bx seq1 seq2 true false).instants := by
  have hs1 := chain'_t_iff_pairwise.mp hwf1.increasing
  have hs2 := chain'_t_iff_pairwise.mp hwf2.increasing
  have hlen1 : 2 ≤ seq1.instants.length := by
    by_contra h
    have := (hwf1.bounds_of_length_one (by have := List.length_pos.mpr hwf1.nonempty; omega)).2
    simp [hu1] at this
  obtain ⟨last2, hl⟩ := lastTwo?_of_getLast? hlen1 h1
  obtain ⟨A, hA⟩ := exists_eq_append_of_lastTwo? hl
  obtain ⟨C, hC⟩ := List.head?_eq_some_iff.mp h2
  have hc : seq2.period.lower = last1.t := by rw [← hadj, upper_eq_of_getLast? hwf1 h1]
  have hc2 : seq2.period.lower = first1.t := lower_eq_of_head? hwf2 h2
  rw [hA] at hs1
  have h21 : last2.t < last1.t :=
    List.rel_of_pairwise_cons (List.pairwise_append.mp hs1).2.1 (List.mem_singleton_self _)
  have hs : ((A ++ [last2]) ++ first1 :: C).Pairwise fun a b => a.t < b.t := by
    rw [List.append_assoc, List.singleton_append]
    refine pairwise_append_cons_of_lt (hs1.sublist (by simp)) (hC ▸ hs2) fun y hy => ?_
    exact h21.trans_le (hc ▸ hc2 ▸ head_le_of_mem (hC ▸ hs2) hy)
  have hL : (tsequenceJoin bx seq1 seq2 true false).instants = (A ++ [last2]) ++ seq2.instants := by
    simp [tsequenceJoin, hA, List.dropLast_append_cons]
  rw [hL]
  refine ⟨by simp, chain'_t_iff_pairwise.mpr (hC ▸ hs), ?_, ?_, fun hlen => ?_,
    endValue_of_suffix hwf2 hl2 fun h => lastTwo?_append_of_two_le _ h, fun t ht => ?_,
    fun t ht => ?_, fun h => absurd h (by simp [hu1])⟩
  · rw [hwf1.lower_eq, hA, List.append_assoc, List.singleton_append,
      firstT_append_cons A last2 seq2.instants [last1]]
  · rw [hwf2.upper_eq]
    exact lastT_append_of_ne_nil _ hwf2.nonempty
  · simp only [hC, List.length_append, List.length_cons, List.length_singleton] at hlen
    omega
  · have ht1 : t < first1.t := hc2 ▸ ht
    have ht2 : t < last1.t := hc ▸ ht
    have hs' : (A ++ [last2, first1]).Pairwise fun a b => a.t < b.t :=
      hs.sublist (by simp)
    rw [hC, instantsValueAt_append_cons_of_lt hs ht1, List.append_assoc, List.singleton_append,
      instantsValueAt_append_pair_of_lt hs' ht1, hA, instantsValueAt_append_pair_of_lt hs1 ht2,
      tsequenceValueAtTimestamp1_step ht1, tsequenceValueAtTimestamp1_step ht2]
  · rw [hC, instantsValueAt_append_cons hs (hc2 ▸ ht)]

/-- Joining without the shared instant on either side, when the segments around it are
redundant: the segment from the instant before it to the instant after it takes the
values of the two segments it replaces. -/
lemma joinedArray_removeBoth (hcol : bt.CollinearSound linear)
    (hbt : linear = true → LawfulBaseType bt) (hwf1 : seq1.WellFormed) (hwf2 : seq2.WellFormed)
    (hl2 : seq2.linear = linear) (h1 : seq1.instants.getLast? = some last1)
    (h2 : seq2.instants.head? = some first1) (hadj : seq1.period.upper = seq2.period.lower)
    {last2 first2 : TInstant V} (h3 : (lastTwo? seq1.instants).map Prod.fst = some last2)
    (h4 : seq2.instants[1]? = some first2)
    (hred : ((!linear && last2.value == last1.value && last1.value == first1.value) ||
      (last2.value == last1.value && last1.value == first1.value && first1.value == first2.value) ||
      (last1.value == first1.value &&
        datumCollinear bt last2.value first1.value first2.value last2.t first1.t first2.t)) = true) :
    JoinedArray bt linear seq1 seq2 (tsequenceJoin bx seq1 seq2 true true).instants := by
  have hs1 := chain'_t_iff_pairwise.mp hwf1.increasing
  have hs2 := chain'_t_iff_pairwise.mp hwf2.increasing
  obtain ⟨x, hx⟩ : ∃ x, lastTwo? seq1.instants = some (last2, x) := by simpa using h3
  obtain ⟨A, hA⟩ := exists_eq_append_of_lastTwo? hx
  obtain rfl : x = last1 := by
    rw [hA, show A ++ [last2, x] = (A ++ [last2]) ++ [x] by simp, List.getLast?_concat] at h1
    exact Option.some.inj h1
  obtain ⟨C, hC⟩ := List.head?_eq_some_iff.mp h2
  obtain ⟨D, rfl⟩ : ∃ D, C = first2 :: D :=
    List.head?_eq_some_iff.mp (by rw [List.head?_eq_getElem?]; simpa [hC] using h4)
  have hc : seq2.period.lower = x.t := by rw [← hadj, upper_eq_of_getLast? hwf1 h1]
  have hc2 : seq2.period.lower = first1.t := lower_eq_of_head? hwf2 h2
  rw [hA] at hs1
  rw [hC] at hs2
  have h21 : last2.t < first1.t := hc2 ▸ hc ▸
    List.rel_of_pairwise_cons (List.pairwise_append.mp hs1).2.1 (List.mem_singleton_self _)
  have h12 : first1.t < first2.t := List.rel_of_pairwise_cons hs2 (List.mem_cons_self _ _)
  obtain ⟨hv, hseg⟩ := eq_segment_of_redundant hcol h21 h12 hred
  obtain rfl : x = first1 := by
    have ht : x.t = first1.t := hc ▸ hc2
    cases x
    cases first1
    simp_all
  have hs : ((A ++ [last2]) ++ first2 :: D).Pairwise fun a b => a.t < b.t := by
    rw [List.append_assoc, List.singleton_append]
    refine pairwise_append_cons_of_lt (hs1.sublist (by simp)) hs2.of_cons fun y hy => ?_
    exact h21.trans (h12.trans_le (head_le_of_mem hs2.of_cons hy))
  have hL : (tsequenceJoin bx seq1 seq2 true true).instants = (A ++ [last2]) ++ first2 :: D := by
    simp [tsequenceJoin, hA, hC, List.dropLast_append_cons]
  rw [hL]
  refine ⟨by simp, chain'_t_iff_pairwise.mpr hs, ?_, ?_, fun hlen => ?_, ?_,
    fun t ht => ?_, fun t ht => ?_, fun _ => ?_⟩
  · rw [hwf1.lower_eq, hA, List.append_assoc, List.singleton_append,
      firstT_append_cons A last2 (first2 :: D) [x]]
  · rw [hwf2.upper_eq, lastT_append_of_ne_nil _ (List.cons_ne_nil _ _), hC, lastT_cons_cons]
  · simp only [List.length_append, List.length_cons, List.length_singleton] at hlen
    omega
  · cases D with
    | nil =>
      rw [List.append_assoc, List.singleton_append, lastTwo?_append_of_two_le A (by simp)]
      have hend := hwf2.endValue
      rw [hC, hl2] at hend
      cases linear
      · rw [tsequenceValueAtTimestamp1_step h12] at hseg
        simp_all [lastTwo?]
      · simp
    | cons d D =>
      refine endValue_of_suffix hwf2 hl2 fun _ => ?_
      rw [hC, lastTwo?_append_of_two_le _ (by simp)]
      exact (lastTwo?_cons_of_two_le _ (by simp)).symm
  · have htc : t < x.t := hc ▸ ht
    have ht2 : t < first2.t := htc.trans h12
    have hs' : (A ++ [last2, first2]).Pairwise fun a b => a.t < b.t := hs.sublist (by simp)
    rw [instantsValueAt_append_cons_of_lt hs ht2, List.append_assoc, List.singleton_append,
      instantsValueAt_append_pair_of_lt hs' ht2, hA, instantsValueAt_append_pair_of_lt hs1 htc]
    split_ifs with h2t
    · have key := tsequenceValueAtTimestamp1_subsegment hbt le_rfl h21 h12.le h2t htc
        fun _ => hseg
      rw [tsequenceValueAtTimestamp1_start] at key
      exact congrArg some key.symm
    · rfl
  · have hct : x.t ≤ t := hc ▸ ht
    have hs' : (A ++ last2 :: first2 :: D).Pairwise fun a b => a.t < b.t := by simpa using hs
    rw [hC]
    by_cases h2t : first2.t ≤ t
    · rw [instantsValueAt_append_cons hs h2t, instantsValueAt_cons_of_le h2t]
    · have ht2 : t < first2.t := not_le.mp h2t
      rw [List.append_assoc, List.singleton_append, instantsValueAt_append_cons hs' (h21.le.trans hct),
        instantsValueAt_cons_cons, instantsValueAt_cons_cons, if_pos ht2, if_pos ht2,
        if_pos (h21.le.trans hct), if_pos hct]
      have key := tsequenceValueAtTimestamp1_subsegment hbt h21.le h12 le_rfl hct ht2
        fun _ => (tsequenceValueAtTimestamp1_end (h21.trans h12)).symm
      rw [← hseg] at key
      exact congrArg some key.symm
  · rw [hc, hA, hC, show A ++ [last2, x] = (A ++ [last2]) ++ [x] by simp,
      instantsValueAt_append_last (by simpa using hs1), instantsValueAt_head hs2]

end Cases

/-! ## The loop -/

section Loop

variable {bt : BaseType V} (bx : BBoxOps V B) {linear : Bool}

/-- One join of the loop of `tsequencearr_normalize`: when its tests pass with the flags
`(removelast, removefirst)`, the join is a well-formed sequence over the two periods
that takes the values of the two sequences. -/
lemma tsequenceJoin_of_joinFlags (hcol : bt.CollinearSound linear)
    (hbt : linear = true → LawfulBaseType bt) {seq1 seq2 : TSequence V B} {rl rf : Bool}
    (hwf1 : seq1.WellFormed) (hwf2 : seq2.WellFormed) (hl1 : seq1.linear = linear)
    (hl2 : seq2.linear = linear) (h : tsequencearrJoinFlags bt linear seq1 seq2 = some (rl, rf)) :
    (tsequenceJoin bx seq1 seq2 rl rf).WellFormed ∧ (tsequenceJoin bx seq1 seq2 rl rf).linear = linear ∧
      (∀ t, containsPeriodTimestamp (tsequenceJoin bx seq1 seq2 rl rf).period t =
        (containsPeriodTimestamp seq1.period t || containsPeriodTimestamp seq2.period t)) ∧
      ∀ t, (tsequenceJoin bx seq1 seq2 rl rf).valueAt bt t = (seq1.valueAt bt t).or (seq2.valueAt bt t) := by
  have h1 := List.getLast?_eq_getLast _ hwf1.nonempty
  have h2 := List.head?_eq_head hwf2.nonempty
  obtain ⟨⟨hadj, hinc⟩, hcases⟩ := tsequencearrJoinFlags_eq_some h1 h2 h
  have hinc' := Bool.or_eq_true _ _ ▸ hinc
  rcases hcases with ⟨rfl, rfl, last2, first2, h3, h4, hred⟩ | ⟨rfl, rfl, rfl, hu1⟩ | ⟨rfl, rfl, hv⟩
  · exact tsequenceJoin_of_joinedArray hwf1 hwf2 hl1 hl2 hadj hinc'
      (joinedArray_removeBoth hcol hbt hwf1 hwf2 hl2 h1 h2 hadj h3 h4 hred)
  · exact tsequenceJoin_of_joinedArray hwf1 hwf2 hl1 hl2 hadj hinc'
      (joinedArray_removeLast hwf1 hwf2 hl2 h1 h2 hadj hu1)
  · exact tsequenceJoin_of_joinedArray hwf1 hwf2 hl1 hl2 hadj hinc'
      (joinedArray_removeFirst hwf1 hwf2 hl2 h1 h2 hadj hv)

/-- What normalizing the sequences `seqs` returns: well-formed sequences with the
interpolation `linear`, in time order and in the periods of `seqs`, that denote what
`seqs` denote. -/
structure NormalizeResult (bt : BaseType V) (linear : Bool) (seqs rs : List (TSequence V B)) :
    Prop where
  wellFormed : ∀ r ∈ rs, r.WellFormed ∧ r.linear = linear
  ordered : TimeOrdered rs
  inPeriods : ∀ r ∈ rs, ∀ t, containsPeriodTimestamp r.period t = true →
    ∃ s ∈ seqs, containsPeriodTimestamp s.period t = true
  valueAt : ∀ t, sequencesValueAt bt rs t = sequencesValueAt bt seqs t

/-- The loop of `tsequencearr_normalize` from a sequence `seq1` before the sequences
`rest`, all well formed and with the interpolation `linear`, returns well-formed sequences
with that interpolation, in the periods of the given ones, that denote what they denote. -/
lemma tsequencearrNormalizeLoop_denotes (hcol : bt.CollinearSound linear)
    (hbt : linear = true → LawfulBaseType bt) (seq1 : TSequence V B) (rest : List (TSequence V B))
    (hwf : ∀ s ∈ seq1 :: rest, s.WellFormed ∧ s.linear = linear) :
    (∀ r ∈ tsequencearrNormalizeLoop bt bx linear seq1 rest, r.WellFormed ∧ r.linear = linear) ∧
      (∀ r ∈ tsequencearrNormalizeLoop bt bx linear seq1 rest, ∀ t,
        containsPeriodTimestamp r.period t = true →
          ∃ s ∈ seq1 :: rest, containsPeriodTimestamp s.period t = true) ∧
      ∀ t, sequencesValueAt bt (tsequencearrNormalizeLoop bt bx linear seq1 rest) t =
        sequencesValueAt bt (seq1 :: rest) t := by
  induction rest generalizing seq1 with
  | nil => exact ⟨hwf, fun r hr t ht => ⟨r, hr, ht⟩, fun t => rfl⟩
  | cons seq2 rest ih =>
    obtain ⟨hwf1, hl1⟩ := hwf seq1 (List.mem_cons_self _ _)
    obtain ⟨hwf2, hl2⟩ := hwf seq2 (List.mem_cons_of_mem _ (List.mem_cons_self _ _))
    simp only [tsequencearrNormalizeLoop]
    rcases hflags : tsequencearrJoinFlags bt linear seq1 seq2 with _ | ⟨rl, rf⟩
    · obtain ⟨hw, hp, hv⟩ := ih seq2 fun s hs => hwf s (List.mem_cons_of_mem _ hs)
      refine ⟨List.forall_mem_cons.mpr ⟨⟨hwf1, hl1⟩, hw⟩,
        List.forall_mem_cons.mpr ⟨fun t ht => ⟨seq1, List.mem_cons_self _ _, ht⟩, fun r hr t ht => ?_⟩,
        fun t => by rw [sequencesValueAt_cons, hv, ← sequencesValueAt_cons]⟩
      obtain ⟨s, hs, h⟩ := hp r hr t ht
      exact ⟨s, List.mem_cons_of_mem _ hs, h⟩
    · obtain ⟨hwfj, hlj, hcj, hvj⟩ := tsequenceJoin_of_joinFlags bx hcol hbt hwf1 hwf2 hl1 hl2 hflags
      obtain ⟨hw, hp, hv⟩ := ih _ (List.forall_mem_cons.mpr ⟨⟨hwfj, hlj⟩, fun s hs =>
        hwf s (List.mem_cons_of_mem _ (List.mem_cons_of_mem _ hs))⟩)
      refine ⟨hw, fun r hr t ht => ?_, fun t => ?_⟩
      · obtain ⟨s, hs, h⟩ := hp r hr t ht
        rcases List.mem_cons.mp hs with rfl | hs
        · rw [hcj, Bool.or_eq_true] at h
          rcases h with h | h
          · exact ⟨seq1, List.mem_cons_self _ _, h⟩
          · exact ⟨seq2, List.mem_cons_of_mem _ (List.mem_cons_self _ _), h⟩
        · exact ⟨s, List.mem_cons_of_mem _ (List.mem_cons_of_mem _ hs), h⟩
      · rw [hv, sequencesValueAt_cons, hvj, sequencesValueAt_cons, sequencesValueAt_cons,
          Option.or_assoc]

/-- The loop of `tsequencearr_normalize` keeps sequences in time order. -/
lemma tsequencearrNormalizeLoop_ordered (hcol : bt.CollinearSound linear)
    (hbt : linear = true → LawfulBaseType bt) (seq1 : TSequence V B) (rest : List (TSequence V B))
    (hwf : ∀ s ∈ seq1 :: rest, s.WellFormed ∧ s.linear = linear) (hord : TimeOrdered (seq1 :: rest)) :
    TimeOrdered (tsequencearrNormalizeLoop bt bx linear seq1 rest) := by
  induction rest generalizing seq1 with
  | nil => exact List.pairwise_singleton _ _
  | cons seq2 rest ih =>
    obtain ⟨hwf1, hl1⟩ := hwf seq1 (List.mem_cons_self _ _)
    obtain ⟨hwf2, hl2⟩ := hwf seq2 (List.mem_cons_of_mem _ (List.mem_cons_self _ _))
    obtain ⟨hb1, hord2⟩ := List.pairwise_cons.mp hord
    simp only [tsequencearrNormalizeLoop]
    rcases hflags : tsequencearrJoinFlags bt linear seq1 seq2 with _ | ⟨rl, rf⟩
    · have hwf' : ∀ s ∈ seq2 :: rest, s.WellFormed ∧ s.linear = linear :=
        fun s hs => hwf s (List.mem_cons_of_mem _ hs)
      refine List.pairwise_cons.mpr ⟨fun r hr t1 t2 h1 h2 => ?_, ih seq2 hwf' hord2⟩
      obtain ⟨s, hs, h2⟩ := (tsequencearrNormalizeLoop_denotes bx hcol hbt seq2 rest hwf').2.1 r hr t2 h2
      exact hb1 s hs t1 t2 h1 h2
    · obtain ⟨hwfj, hlj, hcj, -⟩ := tsequenceJoin_of_joinFlags bx hcol hbt hwf1 hwf2 hl1 hl2 hflags
      refine ih _ (List.forall_mem_cons.mpr ⟨⟨hwfj, hlj⟩, fun s hs =>
        hwf s (List.mem_cons_of_mem _ (List.mem_cons_of_mem _ hs))⟩)
        (List.pairwise_cons.mpr ⟨fun r hr t1 t2 h1 h2 => ?_, hord2.of_cons⟩)
      rw [hcj, Bool.or_eq_true] at h1
      rcases h1 with h1 | h1
      · exact hb1 r (List.mem_cons_of_mem _ hr) t1 t2 h1 h2
      · exact List.rel_of_pairwise_cons hord2 hr t1 t2 h1 h2

/-- `tsequencearr_normalize` on well-formed sequences with the interpolation `linear`
returns well-formed sequences with that interpolation, in the periods of the given ones,
that denote the same temporal value, in whatever order the sequences come. -/
lemma tsequencearrNormalize_denotes (hcol : bt.CollinearSound linear)
    (hbt : linear = true → LawfulBaseType bt) {seqs : List (TSequence V B)}
    (hwf : ∀ s ∈ seqs, s.WellFormed ∧ s.linear = linear) :
    (∀ r ∈ tsequencearrNormalize bt bx seqs, r.WellFormed ∧ r.linear = linear) ∧
      (∀ r ∈ tsequencearrNormalize bt bx seqs, ∀ t, containsPeriodTimestamp r.period t = true →
        ∃ s ∈ seqs, containsPeriodTimestamp s.period t = true) ∧
      ∀ t, sequencesValueAt bt (tsequencearrNormalize bt bx seqs) t = sequencesValueAt bt seqs t := by
  cases seqs with
  | nil => exact ⟨by simp [tsequencearrNormalize], by simp [tsequencearrNormalize], fun _ => rfl⟩
  | cons seq1 rest =>
    rw [tsequencearrNormalize, (hwf seq1 (List.mem_cons_self _ _)).2]
    exact tsequencearrNormalizeLoop_denotes bx hcol hbt seq1 rest hwf

lemma tsequencearrNormalize_ordered (hcol : bt.CollinearSound linear)
    (hbt : linear = true → LawfulBaseType bt) {seqs : List (TSequence V B)}
    (hwf : ∀ s ∈ seqs, s.WellFormed ∧ s.linear = linear) (hord : TimeOrdered seqs) :
    TimeOrdered (tsequencearrNormalize bt bx seqs) := by
  cases seqs with
  | nil => exact .nil
  | cons seq1 rest =>
    rw [tsequencearrNormalize, (hwf seq1 (List.mem_cons_self _ _)).2]
    exact tsequencearrNormalizeLoop_ordered bx hcol hbt seq1 rest hwf hord

/-- `tsequencearr_normalize` on well-formed sequences in time order with the
interpolation `linear` returns well-formed sequences in time order, in the periods of
the given ones, that denote the same temporal value, when the collinearity test of the
base type is sound for that interpolation. -/
theorem tsequencearrNormalize_preserves_value (hcol : bt.CollinearSound linear)
    (hbt : linear = true → LawfulBaseType bt) {seqs : List (TSequence V B)}
    (hwf : ∀ s ∈ seqs, s.WellFormed ∧ s.linear = linear) (hord : TimeOrdered seqs) :
    NormalizeResult bt linear seqs (tsequencearrNormalize bt bx seqs) := by
  obtain ⟨hw, hp, hv⟩ := tsequencearrNormalize_denotes bx hcol hbt hwf
  exact ⟨hw, tsequencearrNormalize_ordered bx hcol hbt hwf hord, hp, hv⟩

/-- Two linear float sequences meeting at 2 on one line, which the loop joins without
the shared instant. -/
theorem tsequencearrNormalize_preserves_value_line :
    (tfloat 0).CollinearSound true ∧
    (∀ s ∈ [(⟨[⟨0, 0⟩, ⟨2, 2⟩], ⟨0, 2, true, false⟩, true, ⟨0, 2, 0, 2⟩⟩ : TSequence ℚ TBox),
        ⟨[⟨2, 2⟩, ⟨4, 4⟩], ⟨2, 4, true, true⟩, true, ⟨2, 4, 2, 4⟩⟩], s.WellFormed ∧ s.linear = true) ∧
    TimeOrdered [(⟨[⟨0, 0⟩, ⟨2, 2⟩], ⟨0, 2, true, false⟩, true, ⟨0, 2, 0, 2⟩⟩ : TSequence ℚ TBox),
      ⟨[⟨2, 2⟩, ⟨4, 4⟩], ⟨2, 4, true, true⟩, true, ⟨2, 4, 2, 4⟩⟩] ∧
    NormalizeResult (tfloat 0) true
      [⟨[⟨0, 0⟩, ⟨2, 2⟩], ⟨0, 2, true, false⟩, true, ⟨0, 2, 0, 2⟩⟩,
        ⟨[⟨2, 2⟩, ⟨4, 4⟩], ⟨2, 4, true, true⟩, true, ⟨2, 4, 2, 4⟩⟩]
      (tsequencearrNormalize (tfloat 0) (tnumberBBox id)
        [⟨[⟨0, 0⟩, ⟨2, 2⟩], ⟨0, 2, true, false⟩, true, ⟨0, 2, 0, 2⟩⟩,
          ⟨[⟨2, 2⟩, ⟨4, 4⟩], ⟨2, 4, true, true⟩, true, ⟨2, 4, 2, 4⟩⟩]) := by
  have hwf : ∀ s ∈ [(⟨[⟨0, 0⟩, ⟨2, 2⟩], ⟨0, 2, true, false⟩, true, ⟨0, 2, 0, 2⟩⟩ : TSequence ℚ TBox),
      ⟨[⟨2, 2⟩, ⟨4, 4⟩], ⟨2, 4, true, true⟩, true, ⟨2, 4, 2, 4⟩⟩], s.WellFormed ∧ s.linear = true := by
    simp only [List.mem_cons, List.mem_singleton, List.not_mem_nil, or_false, forall_eq_or_imp,
      forall_eq]
    exact ⟨⟨⟨by simp, by simp, rfl, by simp, by simp⟩, trivial⟩, ⟨by simp, by simp, rfl, by simp, by simp⟩, trivial⟩
  have hord : TimeOrdered [(⟨[⟨0, 0⟩, ⟨2, 2⟩], ⟨0, 2, true, false⟩, true, ⟨0, 2, 0, 2⟩⟩ :
      TSequence ℚ TBox), ⟨[⟨2, 2⟩, ⟨4, 4⟩], ⟨2, 4, true, true⟩, true, ⟨2, 4, 2, 4⟩⟩] := by
    refine List.pairwise_pair.mpr fun t1 t2 h1 h2 => ?_
    simp [containsPeriodTimestamp_iff] at h1 h2
    omega
  exact ⟨tfloat_collinearSound, hwf, hord,
    tsequencearrNormalize_preserves_value (tnumberBBox id) tfloat_collinearSound (fun _ => tfloat_lawful 0)
      hwf hord⟩

end Loop

end TemporalSequence
