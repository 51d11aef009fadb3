import TemporalSequence.Semantics

/-!
# Pieces of an instant array

The restrictions of a sequence to a value return lists of sequences, each made by
`tsequence_make` from part of the instant array. What they return is described by
counting: `timesCovered seqs t` is the number of returned sequences whose period
contains `t`, and the periods of an array split at its instants into sums of such
counts. A piece of an array is a well-formed sequence that lies in the period of the
array and takes its values there.
-/

namespace TemporalSequence

variable {V B : Type}

/-! ## Counting the sequences that cover a timestamp -/

/-- How many of the sequences have `t` in their period. -/
def timesCovered (seqs : List (TSequence V B)) (t : ℤ) : ℕ :=
  seqs.countP fun seq => containsPeriodTimestamp seq.period t

@[simp] lemma timesCovered_nil (t : ℤ) : timesCovered ([] : List (TSequence V B)) t = 0 := rfl

@[simp] lemma timesCovered_cons (seq : TSequence V B) (seqs : List (TSequence V B)) (t : ℤ) :
    timesCovered (seq :: seqs) t =
      timesCovered seqs t + if containsPeriodTimestamp seq.period t then 1 else 0 := by
  simp [timesCovered, List.countP_cons]

@[simp] lemma timesCovered_append (seqs1 seqs2 : List (TSequence V B)) (t : ℤ) :
    timesCovered (seqs1 ++ seqs2) t = timesCovered seqs1 t + timesCovered seqs2 t :=
  List.countP_append _ _ _

lemma timesCovered_pos_iff {seqs : List (TSequence V B)} {t : ℤ} :
    0 < timesCovered seqs t ↔ ∃ seq ∈ seqs, containsPeriodTimestamp seq.period t = true := by
  simp [timesCovered, List.countP_pos_iff]

lemma pairwise_disjoint_of_timesCovered_le_one {seqs : List (TSequence V B)}
    (h : ∀ t, timesCovered seqs t ≤ 1) :
    seqs.Pairwise fun seq1 seq2 => ∀ t, containsPeriodTimestamp seq1.period t = true →
      containsPeriodTimestamp seq2.period t = false := by
  induction seqs with
  | nil => exact List.Pairwise.nil
  | cons seq seqs ih =>
    refine List.pairwise_cons.mpr ⟨fun seq2 hseq2 t ht1 => ?_, ih fun t => ?_⟩
    · have hpos : ¬0 < timesCovered seqs t := fun hpos => by
        have := h t
        simp only [timesCovered_cons, ht1, if_true] at this
        omega
      simp only [timesCovered_pos_iff, not_exists, not_and, Bool.not_eq_true] at hpos
      exact hpos seq2 hseq2
    · have := h t
      simp only [timesCovered_cons] at this
      omega

lemma containsPeriodTimestamp_split {a b c : ℤ} {lowerInc upperInc inc : Bool} (hac : a < c)
    (hcb : c < b) (t : ℤ) :
    (if containsPeriodTimestamp ⟨a, b, lowerInc, upperInc⟩ t then 1 else 0) =
      (if containsPeriodTimestamp ⟨a, c, lowerInc, inc⟩ t then 1 else 0) +
        (if containsPeriodTimestamp ⟨c, b, !inc, upperInc⟩ t then 1 else 0) := by
  simp only [containsPeriodTimestamp_iff]
  cases lowerInc <;> cases upperInc <;> cases inc <;> simp <;> split_ifs <;> omega

lemma containsPeriodTimestamp_split_lower {a b : ℤ} {lowerInc upperInc : Bool} (hab : a < b)
    (t : ℤ) :
    (if containsPeriodTimestamp ⟨a, b, lowerInc, upperInc⟩ t then 1 else 0) =
      (if lowerInc = true ∧ t = a then 1 else 0) +
        (if containsPeriodTimestamp ⟨a, b, false, upperInc⟩ t then 1 else 0) := by
  simp only [containsPeriodTimestamp_iff]
  cases lowerInc <;> cases upperInc <;> simp <;> split_ifs <;> omega

lemma containsPeriodTimestamp_split_upper {a b : ℤ} {lowerInc upperInc : Bool} (hab : a < b)
    (t : ℤ) :
    (if containsPeriodTimestamp ⟨a, b, lowerInc, upperInc⟩ t then 1 else 0) =
      (if containsPeriodTimestamp ⟨a, b, lowerInc, false⟩ t then 1 else 0) +
        (if upperInc = true ∧ t = b then 1 else 0) := by
  simp only [containsPeriodTimestamp_iff]
  cases lowerInc <;> cases upperInc <;> simp <;> split_ifs <;> omega

lemma containsPeriodTimestamp_mk {a b t : ℤ} {lowerInc upperInc : Bool} :
    containsPeriodTimestamp ⟨a, b, lowerInc, upperInc⟩ t = true ↔
      (a < t ∨ lowerInc = true ∧ a = t) ∧ (t < b ∨ upperInc = true ∧ t = b) :=
  containsPeriodTimestamp_iff

lemma containsPeriodTimestamp_of_upper_lt {a b b' t : ℤ} {lowerInc upperInc upperInc' : Bool}
    (h : containsPeriodTimestamp ⟨a, b, lowerInc, upperInc⟩ t = true) (hb : b < b') :
    containsPeriodTimestamp ⟨a, b', lowerInc, upperInc'⟩ t = true := by
  rw [containsPeriodTimestamp_mk] at h ⊢
  exact ⟨h.1, Or.inl (by rcases h.2 with h2 | ⟨-, rfl⟩ <;> omega)⟩

lemma containsPeriodTimestamp_of_lt_lower {a a' b t : ℤ} {lowerInc lowerInc' upperInc : Bool}
    (h : containsPeriodTimestamp ⟨a, b, lowerInc, upperInc⟩ t = true) (ha : a' < a) :
    containsPeriodTimestamp ⟨a', b, lowerInc', upperInc⟩ t = true := by
  rw [containsPeriodTimestamp_mk] at h ⊢
  exact ⟨Or.inl (by rcases h.1 with h1 | ⟨-, rfl⟩ <;> omega), h.2⟩

@[simp] lemma containsPeriodTimestamp_instant (a t : ℤ) :
    containsPeriodTimestamp ⟨a, a, true, true⟩ t = decide (t = a) := by
  rw [Bool.eq_iff_iff, containsPeriodTimestamp_iff, decide_eq_true_iff]
  simp only [true_and]
  omega

@[simp] lemma periodOf_singleton (inst : TInstant V) (lowerInc upperInc : Bool) :
    periodOf [inst] lowerInc upperInc = ⟨inst.t, inst.t, lowerInc, upperInc⟩ := rfl

@[simp] lemma periodOf_pair (inst1 inst2 : TInstant V) (lowerInc upperInc : Bool) :
    periodOf [inst1, inst2] lowerInc upperInc = ⟨inst1.t, inst2.t, lowerInc, upperInc⟩ := rfl

/-! ## Periods of instant arrays -/

section ArrayPeriods

variable {inst1 inst2 : TInstant V} {rest : List (TInstant V)} {lowerInc upperInc : Bool}

lemma containsPeriodTimestamp_periodOf_of_lt_second
    (hs : (inst1 :: inst2 :: rest).Pairwise fun a b => a.t < b.t) {t : ℤ} (ht : t < inst2.t) :
    containsPeriodTimestamp (periodOf (inst1 :: inst2 :: rest) lowerInc upperInc) t =
      containsPeriodTimestamp ⟨inst1.t, inst2.t, lowerInc, false⟩ t := by
  have h2 : inst2.t ≤ lastT (inst2 :: rest) := le_lastT_of_getElem? hs.of_cons (i := 0) (by simp)
  simp [periodOf, containsPeriodTimestamp, ht, show t < lastT (inst2 :: rest) by omega]

lemma containsPeriodTimestamp_periodOf_of_second_le
    (hs : (inst1 :: inst2 :: rest).Pairwise fun a b => a.t < b.t) {t : ℤ} (ht : inst2.t ≤ t) :
    containsPeriodTimestamp (periodOf (inst1 :: inst2 :: rest) lowerInc upperInc) t =
      containsPeriodTimestamp (periodOf (inst2 :: rest) true upperInc) t := by
  have h12 : inst1.t < inst2.t := List.rel_of_pairwise_cons hs (List.mem_cons_self _ _)
  have h1t : inst1.t < t := by omega
  rcases ht.lt_or_eq with ht | rfl <;> simp [periodOf, containsPeriodTimestamp, h1t, *]

lemma periodOf_split (hrest : rest ≠ []) (hs : (inst1 :: inst2 :: rest).Pairwise fun a b => a.t < b.t)
    (lowerInc upperInc : Bool) (t : ℤ) :
    (if containsPeriodTimestamp (periodOf (inst1 :: inst2 :: rest) lowerInc upperInc) t then 1
      else 0) =
      (if containsPeriodTimestamp ⟨inst1.t, inst2.t, lowerInc, false⟩ t then 1 else 0) +
        (if containsPeriodTimestamp (periodOf (inst2 :: rest) true upperInc) t then 1 else 0) := by
  have h12 : inst1.t < inst2.t := List.rel_of_pairwise_cons hs (List.mem_cons_self _ _)
  obtain ⟨inst3, rest, rfl⟩ := List.exists_cons_of_ne_nil hrest
  have h23 : inst2.t < inst3.t := List.rel_of_pairwise_cons hs.of_cons (List.mem_cons_self _ _)
  have h3 : inst3.t ≤ lastT (inst2 :: inst3 :: rest) :=
    le_lastT_of_getElem? hs.of_cons (i := 1) (by simp)
  simp only [periodOf, firstT_cons, lastT_cons_cons] at h3 ⊢
  exact containsPeriodTimestamp_split h12 (by omega) t

lemma head_le_of_mem {inst a : TInstant V} {rest : List (TInstant V)}
    (hs : (inst :: rest).Pairwise fun a b => a.t < b.t) (ha : a ∈ inst :: rest) :
    inst.t ≤ a.t := by
  rcases List.mem_cons.mp ha with rfl | ha
  · exact le_rfl
  · exact (List.rel_of_pairwise_cons hs ha).le

lemma containsPeriodTimestamp_eq_false_of_lt_lower {p : Period} {t : ℤ} (ht : t < p.lower) :
    containsPeriodTimestamp p t = false := by
  cases h : containsPeriodTimestamp p t
  · rfl
  · exact absurd (bounds_of_containsPeriodTimestamp h).1 (not_le.mpr ht)

lemma getElem?_append_length (pre rest : List (TInstant V)) (inst : TInstant V) :
    (pre ++ inst :: rest)[pre.length]? = some inst := by
  rw [List.getElem?_append_right le_rfl, Nat.sub_self, List.getElem?_cons_zero]

lemma containsPeriodTimestamp_periodOf_drop {instants : List (TInstant V)} {m : ℕ}
    {inst : TInstant V} {lowerInc : Bool}
    (hs : instants.Pairwise fun a b => a.t < b.t) (hm : 0 < m) (h : instants[m]? = some inst)
    {t : ℤ} (ht : inst.t ≤ t) :
    containsPeriodTimestamp (periodOf instants lowerInc upperInc) t =
      containsPeriodTimestamp (periodOf (instants.drop m) true upperInc) t := by
  have hlen : m < instants.length := (List.getElem?_eq_some_iff.mp h).1
  obtain ⟨first, hfirst⟩ : ∃ first, instants[0]? = some first :=
    ⟨_, List.getElem?_eq_getElem (by omega)⟩
  have h0 : firstT instants < inst.t := (firstT_le_of_getElem? hs hfirst).trans_lt
    (t_lt_of_getElem? hs hfirst h hm)
  have hd : firstT (instants.drop m) = inst.t := by
    simp [firstT, List.head?_drop, h]
  simp only [periodOf, containsPeriodTimestamp, lastT_drop hlen, hd,
    show firstT instants < t by omega]
  rcases ht.lt_or_eq with ht | rfl <;> simp [ht]

lemma containsPeriodTimestamp_periodOf_of_lt {pre rest : List (TInstant V)} {inst : TInstant V}
    {w : V} {lowerInc : Bool} (hs : (pre ++ inst :: rest).Pairwise fun a b => a.t < b.t)
    (hpre : pre ≠ []) {t : ℤ} (ht : t < inst.t) :
    containsPeriodTimestamp (periodOf (pre ++ inst :: rest) lowerInc upperInc) t =
      containsPeriodTimestamp (periodOf (pre ++ [⟨w, inst.t⟩]) lowerInc false) t := by
  have hfirst : ∀ l : List (TInstant V), firstT (pre ++ l) = firstT pre := fun l => by
    obtain ⟨a, l', rfl⟩ := List.exists_cons_of_ne_nil hpre
    rfl
  have hlast : inst.t ≤ lastT (pre ++ inst :: rest) := le_lastT_of_getElem? hs (getElem?_append_length pre rest inst)
  have hlast' : lastT (pre ++ [(⟨w, inst.t⟩ : TInstant V)]) = inst.t := by simp [lastT]
  simp [periodOf, containsPeriodTimestamp, hfirst, hlast', ht, show t < lastT (pre ++ inst :: rest) by omega]

lemma lastTwo?_of_getLast? {α : Type} {l : List α} {last : α} (h : 2 ≤ l.length)
    (hl : l.getLast? = some last) : ∃ prev, lastTwo? l = some (prev, last) := by
  obtain ⟨init, rfl⟩ := List.getLast?_eq_some_iff.mp hl
  have hinit : init ≠ [] := by
    rintro rfl
    simp at h
  obtain ⟨prev, hprev⟩ := Option.isSome_iff_exists.mp (List.getLast?_isSome.mpr hinit)
  exact ⟨prev, by rw [lastTwo?_append_singleton, hprev]; rfl⟩

end ArrayPeriods

variable [DecidableEq V]

/-! ## Pieces of a sequence -/

/-- The sequences `seqs` are well formed, interpolate with `linear`, lie in the period
`p` and take there the values of the instant array `instants`. -/
def PiecesOf (bt : BaseType V) (linear : Bool) (instants : List (TInstant V)) (p : Period)
    (seqs : List (TSequence V B)) : Prop :=
  ∀ seq ∈ seqs, seq.WellFormed ∧ seq.linear = linear ∧ ∀ t,
    containsPeriodTimestamp seq.period t = true →
      containsPeriodTimestamp p t = true ∧ seq.valueAt bt t = instantsValueAt bt linear instants t

section Pieces

variable {bt : BaseType V} {linear : Bool} {instants : List (TInstant V)} {p : Period}

@[simp] lemma piecesOf_nil : PiecesOf bt linear instants p ([] : List (TSequence V B)) := by
  simp [PiecesOf]

@[simp] lemma piecesOf_append {seqs1 seqs2 : List (TSequence V B)} :
    PiecesOf bt linear instants p (seqs1 ++ seqs2) ↔
      PiecesOf bt linear instants p seqs1 ∧ PiecesOf bt linear instants p seqs2 :=
  List.forall_mem_append

lemma PiecesOf.mono {instants' : List (TInstant V)} {p' : Period} {seqs : List (TSequence V B)}
    (h : PiecesOf bt linear instants p seqs)
    (hp : ∀ t, containsPeriodTimestamp p t = true → containsPeriodTimestamp p' t = true ∧
      instantsValueAt bt linear instants t = instantsValueAt bt linear instants' t) :
    PiecesOf bt linear instants' p' seqs := fun seq hseq => by
  obtain ⟨hwf, hlin, hval⟩ := h seq hseq
  refine ⟨hwf, hlin, fun t ht => ?_⟩
  obtain ⟨hpt, hv⟩ := hval t ht
  exact ⟨(hp t hpt).1, hv.trans (hp t hpt).2⟩

lemma PiecesOf.timesCovered_eq_zero {seqs : List (TSequence V B)}
    (h : PiecesOf bt linear instants p seqs) {t : ℤ} (ht : containsPeriodTimestamp p t = false) :
    timesCovered seqs t = 0 := by
  simp only [timesCovered, List.countP_eq_zero]
  intro seq hseq hc
  simp [((h seq hseq).2.2 t hc).1] at ht

lemma tsequenceMake_period {bx : BBoxOps V B} {pieceInstants : List (TInstant V)}
    {lowerInc upperInc : Bool} {seq : TSequence V B}
    (h : tsequenceMake bt bx pieceInstants lowerInc upperInc linear false = .ok seq) :
    seq.period = periodOf pieceInstants lowerInc upperInc ∧ seq.linear = linear := by
  obtain ⟨-, rfl⟩ := tsequenceMake_eq_ok.mp h
  exact ⟨rfl, rfl⟩

/-- A sequence built by `tsequence_make` from an array that agrees with `instants` on
its period, inside `p`, is a piece of `instants` in `p`. -/
lemma piecesOf_tsequenceMake {bx : BBoxOps V B} {pieceInstants : List (TInstant V)}
    {lowerInc upperInc : Bool} {seq : TSequence V B}
    (h : tsequenceMake bt bx pieceInstants lowerInc upperInc linear false = .ok seq)
    (hp : ∀ t, containsPeriodTimestamp (periodOf pieceInstants lowerInc upperInc) t = true →
      containsPeriodTimestamp p t = true ∧
        instantsValueAt bt linear pieceInstants t = instantsValueAt bt linear instants t) :
    PiecesOf bt linear instants p [seq] := by
  intro seq' hseq'
  rw [List.mem_singleton.mp hseq']
  obtain ⟨hper, hlin⟩ := tsequenceMake_period h
  refine ⟨tsequenceMake_wellFormed h, hlin, fun t ht => ?_⟩
  rw [hper] at ht
  rw [tsequenceMake_valueAt h, if_pos ht]
  exact hp t ht

lemma piecesOf_single {bx : BBoxOps V B} {inst : TInstant V} {seq : TSequence V B}
    (h : tsequenceMake bt bx [inst] true true linear false = .ok seq)
    (hp : containsPeriodTimestamp p inst.t = true)
    (hv : instantsValueAt bt linear instants inst.t = some inst.value) :
    PiecesOf bt linear instants p [seq] :=
  piecesOf_tsequenceMake h fun t ht => by
    obtain rfl : t = inst.t := by simpa using ht
    exact ⟨hp, by simp [instantsValueAt, hv]⟩

end Pieces

lemma tsequenceMake_single_ok (bt : BaseType V) (bx : BBoxOps V B) (linear : Bool)
    (inst : TInstant V) :
    ∃ seq, tsequenceMake bt bx [inst] true true linear false = .ok seq :=
  ⟨_, tsequenceMake_eq_ok.mpr
    ⟨tsequenceMakeCheck_eq_ok.mpr ⟨by simp, by simp, by simp, by simp [lastTwo?]⟩, rfl⟩⟩

lemma tsequenceMake_pair_ok (bt : BaseType V) (bx : BBoxOps V B) (linear : Bool)
    {inst1 inst2 : TInstant V} (lowerInc upperInc : Bool)
    (h12 : inst1.t < inst2.t) (hend : linear = false → upperInc = false → inst1.value = inst2.value) :
    ∃ seq, tsequenceMake bt bx [inst1, inst2] lowerInc upperInc linear false = .ok seq :=
  ⟨_, tsequenceMake_eq_ok.mpr ⟨tsequenceMakeCheck_eq_ok.mpr ⟨by simp, by simpa using h12, by simp,
    by cases linear <;> cases upperInc <;> simp_all [lastTwo?]⟩, rfl⟩⟩

/-! ## Values of instant arrays -/

section ArrayValues

variable {inst1 inst2 : TInstant V} {rest : List (TInstant V)}

lemma instantsValueAt_of_lt_second {bt : BaseType V} {linear : Bool} {t : ℤ} (ht : t < inst2.t) :
    instantsValueAt bt linear (inst1 :: inst2 :: rest) t = instantsValueAt bt linear [inst1, inst2] t := by
  rw [instantsValueAt_cons_cons, instantsValueAt_cons_cons, if_pos ht, if_pos ht]

lemma instantsValueAt_step_mem {bt : BaseType V} {instants : List (TInstant V)} {t : ℤ} {w : V}
    (h : instantsValueAt bt false instants t = some w) : ∃ inst ∈ instants, inst.value = w := by
  induction instants with
  | nil => simp [instantsValueAt] at h
  | cons inst1 rest ih =>
    match rest, h, ih with
    | [], h, _ =>
      simp only [instantsValueAt, Option.ite_none_right_eq_some, Option.some.injEq] at h
      exact ⟨inst1, List.mem_singleton_self _, h.2⟩
    | inst2 :: rest, h, ih =>
      rw [instantsValueAt_cons_cons] at h
      split_ifs at h with h2
      · rw [Option.some.injEq, tsequenceValueAtTimestamp1_step h2] at h
        exact ⟨inst1, List.mem_cons_self _ _, h⟩
      · obtain ⟨inst, hinst, hv⟩ := ih h
        exact ⟨inst, List.mem_cons_of_mem _ hinst, hv⟩

lemma instantsValueAt_append_cons {bt : BaseType V} {linear : Bool} {pre rest : List (TInstant V)}
    {inst : TInstant V} {t : ℤ} (hs : (pre ++ inst :: rest).Pairwise fun a b => a.t < b.t)
    (ht : inst.t ≤ t) :
    instantsValueAt bt linear (pre ++ inst :: rest) t = instantsValueAt bt linear (inst :: rest) t := by
  rw [instantsValueAt_drop hs (getElem?_append_length pre rest inst) ht, List.drop_left]

end ArrayValues

end TemporalSequence
