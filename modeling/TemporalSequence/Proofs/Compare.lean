import TemporalSequence.Compare
import TemporalSequence.Invariant
import TemporalSequence.TNumber

/-!
# `tsequence_cmp` is a total order

Over lawful comparators of periods, boxes and instants, `tsequence_cmp` is antisymmetric
and transitive on well-formed sequences, and zero exactly when `tsequence_eq` holds.
Its instant loop compares only the first `Min(count1, count2)` instants: on two
well-formed sequences with one period, an array that is a prefix of the other ends
at the same timestamp, so the two arrays are equal and the missing comparison of the
counts is never needed.
-/

namespace TemporalSequence

variable {V B : Type}

/-- A comparator that is a total order, zero exactly on equal arguments. -/
structure LawfulCmp {α : Type} (cmp : α → α → ℤ) : Prop where
  antisymm : ∀ x y, cmp x y = -cmp y x
  eq_zero : ∀ x y, cmp x y = 0 ↔ x = y
  trans : ∀ x y z, cmp x y < 0 → cmp y z < 0 → cmp x z < 0

/-- The three comparators `tsequence_cmp` calls are lawful. -/
structure Comparators.Lawful (c : Comparators V B) : Prop where
  period : LawfulCmp c.periodCmp
  bbox : LawfulCmp c.bboxCmp
  tinstant : LawfulCmp c.tinstantCmp

/-! ## Lexicographic combination -/

/-- The step `if (result) return result;` of a comparison followed by the comparison
`k` of the next component. -/
def lexCmp (r k : ℤ) : ℤ := if r ≠ 0 then r else k

lemma lexCmp_eq_zero {r k : ℤ} : lexCmp r k = 0 ↔ r = 0 ∧ k = 0 := by
  unfold lexCmp
  split_ifs with h <;> simp_all

lemma lexCmp_antisymm {r12 r21 k12 k21 : ℤ} (hr : r12 = -r21) (hk : r12 = 0 → k12 = -k21) :
    lexCmp r12 k12 = -lexCmp r21 k21 := by
  unfold lexCmp
  split_ifs <;> omega

/-- A component compared by a lawful comparator, then the next ones, compare
transitively. -/
lemma lexCmp_trans {r12 r23 r13 k12 k23 k13 : ℤ}
    (hr : r12 < 0 → r23 < 0 → r13 < 0) (hr12 : r12 = 0 → r13 = r23) (hr23 : r23 = 0 → r13 = r12)
    (hk : r12 = 0 → r23 = 0 → k12 < 0 → k23 < 0 → k13 < 0) :
    lexCmp r12 k12 < 0 → lexCmp r23 k23 < 0 → lexCmp r13 k13 < 0 := by
  unfold lexCmp
  by_cases h12 : r12 = 0 <;> by_cases h23 : r23 = 0
  · have := hr12 h12
    simp only [h12, h23, ne_eq, not_true_eq_false, if_false] at this ⊢
    simp only [this, ne_eq, not_true_eq_false, if_false]
    exact hk h12 h23
  · have := hr12 h12
    simp only [h12, h23, this, ne_eq, not_true_eq_false, not_false_eq_true, if_false, if_true]
    exact fun _ h => h
  · have := hr23 h23
    simp only [h12, h23, this, ne_eq, not_true_eq_false, not_false_eq_true, if_false, if_true]
    exact fun h _ => h
  · simp only [h12, h23, ne_eq, not_false_eq_true, if_true]
    intro h1 h2
    have := hr h1 h2
    rw [if_pos this.ne]
    exact this

lemma LawfulCmp.lex_facts {α : Type} {cmp : α → α → ℤ} (h : LawfulCmp cmp) (x y z : α) :
    (cmp x y < 0 → cmp y z < 0 → cmp x z < 0) ∧ (cmp x y = 0 → cmp x z = cmp y z) ∧
      (cmp y z = 0 → cmp x z = cmp x y) :=
  ⟨h.trans x y z, fun hxy => by rw [(h.eq_zero x y).mp hxy],
    fun hyz => by rw [(h.eq_zero y z).mp hyz]⟩

/-! ## The components -/

/-- The comparison of the flags at the end of `tsequence_cmp`. -/
def flagsCmp (linear1 linear2 : Bool) : ℤ :=
  if !linear1 && linear2 then -1 else if linear1 && !linear2 then 1 else 0

lemma flagsCmp_lawful : LawfulCmp flagsCmp where
  antisymm := by decide
  eq_zero := by decide
  trans := by decide

lemma tsequenceCmp_eq_lexCmp (c : Comparators V B) (seq1 seq2 : TSequence V B) :
    tsequenceCmp c seq1 seq2 = lexCmp (c.periodCmp seq1.period seq2.period)
      (lexCmp (c.bboxCmp seq1.bbox seq2.bbox)
        (lexCmp (tsequenceCmpInstants c.tinstantCmp seq1.instants seq2.instants)
          (flagsCmp seq1.linear seq2.linear))) := rfl

section Instants

variable {cmp : TInstant V → TInstant V → ℤ} (h : LawfulCmp cmp)
include h

lemma tsequenceCmpInstants_antisymm (l1 l2 : List (TInstant V)) :
    tsequenceCmpInstants cmp l1 l2 = -tsequenceCmpInstants cmp l2 l1 := by
  induction l1 generalizing l2 with
  | nil => cases l2 <;> rfl
  | cons x rest1 ih =>
    cases l2 with
    | nil => rfl
    | cons y rest2 =>
      simp only [tsequenceCmpInstants]
      have := h.antisymm x y
      split_ifs <;> first | omega | exact ih rest2

lemma tsequenceCmpInstants_trans (l1 l2 l3 : List (TInstant V)) :
    tsequenceCmpInstants cmp l1 l2 < 0 → tsequenceCmpInstants cmp l2 l3 < 0 →
      tsequenceCmpInstants cmp l1 l3 < 0 := by
  induction l1 generalizing l2 l3 with
  | nil => intro h12; exact absurd h12 (by cases l2 <;> simp [tsequenceCmpInstants])
  | cons x rest1 ih =>
    match l2, l3 with
    | [], _ => simp [tsequenceCmpInstants]
    | _ :: _, [] => simp [tsequenceCmpInstants]
    | y :: rest2, z :: rest3 =>
      have hfacts := h.lex_facts x y z
      have hrest := ih rest2 rest3
      simp only [tsequenceCmpInstants]
      exact lexCmp_trans hfacts.1 hfacts.2.1 hfacts.2.2 fun _ _ => hrest

lemma prefix_of_tsequenceCmpInstants_eq_zero {l1 l2 : List (TInstant V)}
    (h0 : tsequenceCmpInstants cmp l1 l2 = 0) : l1 <+: l2 ∨ l2 <+: l1 := by
  induction l1 generalizing l2 with
  | nil => exact .inl (List.nil_prefix)
  | cons x rest1 ih =>
    cases l2 with
    | nil => exact .inr List.nil_prefix
    | cons y rest2 =>
      have hz := (lexCmp_eq_zero.mp h0)
      rw [(h.eq_zero x y).mp hz.1]
      rcases ih hz.2 with hp | hp
      · exact .inl (List.prefix_cons_inj y |>.mpr hp)
      · exact .inr (List.prefix_cons_inj y |>.mpr hp)

end Instants

lemma eq_of_prefix_of_lastT_eq {l1 l2 : List (TInstant V)}
    (hs : l2.Pairwise fun a b => a.t < b.t) (hne : l1 ≠ []) (hp : l1 <+: l2)
    (hl : lastT l1 = lastT l2) : l1 = l2 := by
  obtain ⟨rest, rfl⟩ := hp
  cases rest with
  | nil => simp
  | cons r rest =>
    obtain ⟨last, hlast⟩ := Option.isSome_iff_exists.mp (List.getLast?_isSome.mpr hne)
    obtain ⟨last', hlast'⟩ := Option.isSome_iff_exists.mp
      (List.getLast?_isSome.mpr (List.cons_ne_nil r rest))
    have hlt : last.t < last'.t := List.pairwise_append.mp hs |>.2.2 last
      (List.mem_of_getLast?_eq_some hlast) last' (List.mem_of_getLast?_eq_some hlast')
    simp [lastT, List.getLast?_append, hlast, hlast'] at hl
    omega

/-! ## The order on sequences -/

variable [DecidableEq V]

/-- On well-formed sequences with one period the instant loop of `tsequence_cmp` finds
no difference only between equal arrays: the counts need no comparison. -/
lemma instants_eq_of_tsequenceCmpInstants_eq_zero {cmp : TInstant V → TInstant V → ℤ}
    (h : LawfulCmp cmp) {seq1 seq2 : TSequence V B} (hwf1 : seq1.WellFormed)
    (hwf2 : seq2.WellFormed) (hp : seq1.period = seq2.period)
    (h0 : tsequenceCmpInstants cmp seq1.instants seq2.instants = 0) :
    seq1.instants = seq2.instants := by
  have hl : lastT seq1.instants = lastT seq2.instants := by
    have hu := congrArg Period.upper hp
    rw [hwf1.period, hwf2.period] at hu
    simpa [periodOf] using hu
  rcases prefix_of_tsequenceCmpInstants_eq_zero h h0 with hpf | hpf
  · exact eq_of_prefix_of_lastT_eq (chain'_t_iff_pairwise.mp hwf2.increasing) hwf1.nonempty hpf hl
  · exact (eq_of_prefix_of_lastT_eq (chain'_t_iff_pairwise.mp hwf1.increasing) hwf2.nonempty hpf
      hl.symm).symm

section Order

variable {c : Comparators V B} (hc : c.Lawful)
include hc

omit [DecidableEq V] in
lemma tsequenceCmp_antisymm (seq1 seq2 : TSequence V B) :
    tsequenceCmp c seq1 seq2 = -tsequenceCmp c seq2 seq1 := by
  rw [tsequenceCmp_eq_lexCmp, tsequenceCmp_eq_lexCmp]
  exact lexCmp_antisymm (hc.period.antisymm _ _) fun _ =>
    lexCmp_antisymm (hc.bbox.antisymm _ _) fun _ =>
      lexCmp_antisymm (tsequenceCmpInstants_antisymm hc.tinstant _ _) fun _ =>
        flagsCmp_lawful.antisymm _ _

/-- On well-formed sequences `tsequence_cmp` is zero exactly on equal sequences. -/
lemma tsequenceCmp_eq_zero_iff {seq1 seq2 : TSequence V B} (hwf1 : seq1.WellFormed)
    (hwf2 : seq2.WellFormed) : tsequenceCmp c seq1 seq2 = 0 ↔ seq1 = seq2 := by
  rw [tsequenceCmp_eq_lexCmp, lexCmp_eq_zero, lexCmp_eq_zero, lexCmp_eq_zero,
    hc.period.eq_zero, hc.bbox.eq_zero, flagsCmp_lawful.eq_zero]
  constructor
  · rintro ⟨hp, hb, hi, hl⟩
    have := instants_eq_of_tsequenceCmpInstants_eq_zero hc.tinstant hwf1 hwf2 hp hi
    obtain ⟨instants1, period1, linear1, bbox1⟩ := seq1
    obtain ⟨instants2, period2, linear2, bbox2⟩ := seq2
    simp_all
  · rintro rfl
    refine ⟨rfl, rfl, ?_, rfl⟩
    have := tsequenceCmpInstants_antisymm hc.tinstant seq1.instants seq1.instants
    omega

/-- On well-formed sequences `tsequence_cmp` is transitive. -/
lemma tsequenceCmp_trans {seq1 seq2 seq3 : TSequence V B} (hwf1 : seq1.WellFormed)
    (hwf2 : seq2.WellFormed) (hwf3 : seq3.WellFormed) :
    tsequenceCmp c seq1 seq2 < 0 → tsequenceCmp c seq2 seq3 < 0 → tsequenceCmp c seq1 seq3 < 0 := by
  simp only [tsequenceCmp_eq_lexCmp]
  have hp := hc.period.lex_facts seq1.period seq2.period seq3.period
  refine lexCmp_trans hp.1 hp.2.1 hp.2.2 fun hp12 hp23 => ?_
  have hb := hc.bbox.lex_facts seq1.bbox seq2.bbox seq3.bbox
  refine lexCmp_trans hb.1 hb.2.1 hb.2.2 fun _ _ => ?_
  have hp12 := (hc.period.eq_zero _ _).mp hp12
  have hp23 := (hc.period.eq_zero _ _).mp hp23
  have hf := flagsCmp_lawful.lex_facts seq1.linear seq2.linear seq3.linear
  refine lexCmp_trans (tsequenceCmpInstants_trans hc.tinstant _ _ _) (fun h0 => ?_) (fun h0 => ?_)
    fun _ _ => hf.1
  · rw [instants_eq_of_tsequenceCmpInstants_eq_zero hc.tinstant hwf1 hwf2 hp12 h0]
  · rw [instants_eq_of_tsequenceCmpInstants_eq_zero hc.tinstant hwf2 hwf3 hp23 h0]

end Order

variable [DecidableEq B]

/-- The instant loop of `tsequence_eq` holds exactly on equal arrays of one count. -/
lemma tsequenceEqInstants_iff {l1 l2 : List (TInstant V)} (hlen : l1.length = l2.length) :
    tsequenceEqInstants l1 l2 = true ↔ l1 = l2 := by
  induction l1 generalizing l2 with
  | nil => cases l2 <;> simp_all [tsequenceEqInstants]
  | cons x rest1 ih =>
    cases l2 with
    | nil => simp at hlen
    | cons y rest2 =>
      by_cases hxy : x = y <;>
        simp [tsequenceEqInstants, hxy, ih (by simpa using hlen)]

/-- `tsequence_eq` holds exactly on equal sequences. -/
lemma tsequenceEq_iff {seq1 seq2 : TSequence V B} : tsequenceEq seq1 seq2 = true ↔ seq1 = seq2 := by
  unfold tsequenceEq
  split_ifs with h1 h2
  · simp only [Bool.false_eq_true, false_iff]
    rintro rfl
    simp at h1
  · simp only [Bool.false_eq_true, false_iff]
    rintro rfl
    exact h2 rfl
  · push_neg at h1 h2
    rw [tsequenceEqInstants_iff h1.1]
    obtain ⟨instants1, period1, linear1, bbox1⟩ := seq1
    obtain ⟨instants2, period2, linear2, bbox2⟩ := seq2
    simp_all

/-! ## Comparators ordering the fields -/

/-- The comparison of two values of a linear order, as `-1`, `0` or `1`. -/
def ordCmp {α : Type} [LinearOrder α] (a b : α) : ℤ := if a < b then -1 else if b < a then 1 else 0

lemma ordCmp_neg_iff {α : Type} [LinearOrder α] {a b : α} : ordCmp a b < 0 ↔ a < b := by
  unfold ordCmp
  split_ifs with h1 h2 <;> simp [h1]

lemma ordCmp_lawful {α : Type} [LinearOrder α] : LawfulCmp (@ordCmp α _) where
  antisymm x y := by
    rcases lt_trichotomy x y with h | rfl | h
    · simp [ordCmp, h, h.not_lt]
    · simp [ordCmp]
    · simp [ordCmp, h, h.not_lt]
  eq_zero x y := by
    rcases lt_trichotomy x y with h | rfl | h
    · simp [ordCmp, h, h.ne]
    · simp [ordCmp]
    · simp [ordCmp, h, h.not_lt, h.ne']
  trans _ _ _ h1 h2 := ordCmp_neg_iff.mpr ((ordCmp_neg_iff.mp h1).trans (ordCmp_neg_iff.mp h2))

lemma LawfulCmp.prod {α β : Type} {f : α → α → ℤ} {g : β → β → ℤ} (hf : LawfulCmp f)
    (hg : LawfulCmp g) : LawfulCmp fun x y : α × β => lexCmp (f x.1 y.1) (g x.2 y.2) where
  antisymm _ _ := lexCmp_antisymm (hf.antisymm _ _) fun _ => hg.antisymm _ _
  eq_zero _ _ := by rw [lexCmp_eq_zero, hf.eq_zero, hg.eq_zero, Prod.ext_iff]
  trans x y z :=
    let h := hf.lex_facts x.1 y.1 z.1
    lexCmp_trans h.1 h.2.1 h.2.2 fun _ _ => hg.trans _ _ _

lemma LawfulCmp.comap {α γ : Type} {f : α → α → ℤ} (hf : LawfulCmp f) {e : γ → α}
    (he : Function.Injective e) : LawfulCmp fun x y => f (e x) (e y) where
  antisymm _ _ := hf.antisymm _ _
  eq_zero _ _ := (hf.eq_zero _ _).trans he.eq_iff
  trans _ _ _ := hf.trans _ _ _

/-- Comparators ordering periods, float boxes and float instants by their fields in
turn. -/
def fieldComparators : Comparators ℚ TBox where
  periodCmp p q := lexCmp (ordCmp p.lower q.lower) (lexCmp (ordCmp p.upper q.upper)
    (lexCmp (ordCmp p.lowerInc q.lowerInc) (ordCmp p.upperInc q.upperInc)))
  bboxCmp b c := lexCmp (ordCmp b.xmin c.xmin) (lexCmp (ordCmp b.xmax c.xmax)
    (lexCmp (ordCmp b.tmin c.tmin) (ordCmp b.tmax c.tmax)))
  tinstantCmp i j := lexCmp (ordCmp i.t j.t) (ordCmp i.value j.value)

lemma fieldComparators_lawful : fieldComparators.Lawful where
  period := (ordCmp_lawful.prod (ordCmp_lawful.prod (ordCmp_lawful.prod ordCmp_lawful))).comap
    (e := fun p : Period => (p.lower, p.upper, p.lowerInc, p.upperInc))
    fun p q h => by cases p; cases q; simp_all
  bbox := (ordCmp_lawful.prod (ordCmp_lawful.prod (ordCmp_lawful.prod ordCmp_lawful))).comap
    (e := fun b : TBox => (b.xmin, b.xmax, b.tmin, b.tmax))
    fun b c h => by cases b; cases c; simp_all
  tinstant := (ordCmp_lawful.prod ordCmp_lawful).comap (e := fun i : TInstant ℚ => (i.t, i.value))
    fun i j h => by cases i; cases j; simp_all

/-- Over lawful comparators of periods, boxes and instants, `tsequence_cmp` is
antisymmetric, transitive on well-formed sequences, and zero on two well-formed
sequences exactly when `tsequence_eq` holds. -/
theorem tsequence_cmp_total_order {c : Comparators V B} (hc : c.Lawful) :
    (∀ seq1 seq2 : TSequence V B, tsequenceCmp c seq1 seq2 = -tsequenceCmp c seq2 seq1) ∧
    (∀ seq1 seq2 seq3 : TSequence V B, seq1.WellFormed → seq2.WellFormed → seq3.WellFormed →
      tsequenceCmp c seq1 seq2 < 0 → tsequenceCmp c seq2 seq3 < 0 → tsequenceCmp c seq1 seq3 < 0) ∧
    (∀ seq1 seq2 : TSequence V B, seq1.WellFormed → seq2.WellFormed →
      (tsequenceCmp c seq1 seq2 = 0 ↔ tsequenceEq seq1 seq2 = true)) :=
  ⟨tsequenceCmp_antisymm hc, fun _ _ _ => tsequenceCmp_trans hc,
    fun _ _ hwf1 hwf2 => (tsequenceCmp_eq_zero_iff hc hwf1 hwf2).trans tsequenceEq_iff.symm⟩

/-- Ordering the fields of periods, float boxes and float instants in turn gives lawful
comparators, over which `tsequence_cmp` orders float sequences. -/
theorem tsequence_cmp_total_order_fields :
    fieldComparators.Lawful ∧
    (∀ seq1 seq2 : TSequence ℚ TBox,
      tsequenceCmp fieldComparators seq1 seq2 = -tsequenceCmp fieldComparators seq2 seq1) ∧
    (∀ seq1 seq2 seq3 : TSequence ℚ TBox, seq1.WellFormed → seq2.WellFormed → seq3.WellFormed →
      tsequenceCmp fieldComparators seq1 seq2 < 0 → tsequenceCmp fieldComparators seq2 seq3 < 0 →
        tsequenceCmp fieldComparators seq1 seq3 < 0) ∧
    (∀ seq1 seq2 : TSequence ℚ TBox, seq1.WellFormed → seq2.WellFormed →
      (tsequenceCmp fieldComparators seq1 seq2 = 0 ↔ tsequenceEq seq1 seq2 = true)) :=
  ⟨fieldComparators_lawful, tsequence_cmp_total_order fieldComparators_lawful⟩

end TemporalSequence
