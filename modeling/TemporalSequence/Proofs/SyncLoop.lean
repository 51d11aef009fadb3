import TemporalSequence.Synchronize
import TemporalSequence.Proofs.RestrictPeriod
import TemporalSequence.Proofs.Pieces

/-!
# The merge loop of the synchronization

An instant array refines another when its instants lie on the other and it has a
timestamp at every instant of the other between its first and last timestamps: it
then takes the values of the other from its first timestamp to its last. The loop of
`synchronize_tsequence_tsequence` is shown, by induction on the instants it still has
to read, to return pairs of instants at equal timestamps lying on the two sequences,
in time order from the lower to the upper bound of the intersection of their periods,
with a pair at every timestamp of either sequence in between.
-/

namespace TemporalSequence

variable {V B : Type} [DecidableEq V]

/-! ## Arrays refining an array -/

/-- The instant `inst` lies on the instant array `instants`: the array takes its value
at its timestamp. -/
def LiesOn (bt : BaseType V) (linear : Bool) (instants : List (TInstant V)) (inst : TInstant V) :
    Prop :=
  instantsValueAt bt linear instants inst.t = some inst.value

section Refinement

variable {bt : BaseType V} {linear : Bool} {instants : List (TInstant V)}
  (hs : instants.Pairwise fun a b => a.t < b.t)
include hs

lemma liesOn_of_mem {inst : TInstant V} (h : inst ∈ instants) : LiesOn bt linear instants inst := by
  obtain ⟨k, hk⟩ := List.mem_iff_getElem?.mp h
  obtain ⟨hlt, rfl⟩ := List.getElem?_eq_some_iff.mp hk
  have hd := List.drop_eq_getElem_cons hlt
  rw [LiesOn, instantsValueAt_drop hs hk le_rfl, hd]
  exact instantsValueAt_head (hd ▸ hs.sublist (List.drop_sublist k instants))

lemma instantsValueAt_of_between (hbt : linear = true → LawfulBaseType bt) {a b : TInstant V}
    (ha : LiesOn bt linear instants a) {vb : V} (hb : instantsValueAt bt linear instants b.t = some vb)
    (hw : linear = true → b.value = vb) (hab : a.t < b.t)
    (hgap : ∀ s ∈ instants, ¬(a.t < s.t ∧ s.t < b.t)) {t : ℤ} (hat : a.t ≤ t) (htb : t < b.t) :
    instantsValueAt bt linear instants t = some (tsequenceValueAtTimestamp1 bt a b linear t) := by
  have hcut := instantsValueAt_cut hbt hs ha hb hw hab hat htb
  rw [List.filter_eq_nil_iff.mpr fun s hsm => by simpa using hgap s hsm] at hcut
  rw [← hcut]
  simp [instantsValueAt_cons_cons, htb, hat]

/-- An array in time order whose instants lie on a sorted array (with step
interpolation its last one need only be in its span), and which has a timestamp at
every instant of that array strictly between its first and last timestamps, takes the
values of that array from its first timestamp to its last. -/
theorem instantsValueAt_of_refines (hbt : linear = true → LawfulBaseType bt)
    {sync : List (TInstant V)} (hsync : sync.Pairwise fun a b => a.t < b.t)
    (hon : sync.Chain' fun a b => LiesOn bt linear instants a ∧
      (instantsValueAt bt linear instants b.t).isSome ∧ (linear = true → LiesOn bt linear instants b))
    (hcov : ∀ s ∈ instants, firstT sync < s.t → s.t < lastT sync → ∃ q ∈ sync, q.t = s.t)
    {t : ℤ} (h1 : firstT sync ≤ t) (h2 : t < lastT sync) :
    instantsValueAt bt linear sync t = instantsValueAt bt linear instants t := by
  induction sync with
  | nil => exact absurd (h1.trans_lt h2) (lt_irrefl 0)
  | cons a rest ih =>
    match rest, hsync, hon, hcov, ih, h2 with
    | [], _, _, _, _, h2 => simp only [firstT_cons, lastT_singleton] at h1 h2; omega
    | b :: rest, hsync, hon, hcov, ih, h2 =>
      have hab : a.t < b.t := List.rel_of_pairwise_cons hsync (List.mem_cons_self _ _)
      have hlast : b.t ≤ lastT (b :: rest) := le_lastT_of_getElem? hsync.of_cons (i := 0) (by simp)
      simp only [firstT_cons, lastT_cons_cons] at h1 h2 hcov
      obtain ⟨⟨ha, hb, hbl⟩, hon⟩ := List.chain'_cons.mp hon
      by_cases htb : t < b.t
      · obtain ⟨vb, hvb⟩ := Option.isSome_iff_exists.mp hb
        have hgap : ∀ s ∈ instants, ¬(a.t < s.t ∧ s.t < b.t) := fun s hsm ⟨has, hsb⟩ => by
          obtain ⟨q, hq, hqt⟩ := hcov s hsm has (by omega)
          rcases List.mem_cons.mp hq with rfl | hq
          · omega
          · have := head_le_of_mem hsync.of_cons hq
            omega
        rw [instantsValueAt_cons_cons, if_pos htb, if_pos h1, instantsValueAt_of_between hs hbt ha
          hvb (fun hl => Option.some.inj ((hbl hl).symm.trans hvb)) hab hgap h1 htb]
      · rw [instantsValueAt_cons_of_le (not_lt.mp htb)]
        refine ih hsync.of_cons hon (fun s hsm h1s h2s => ?_) (by simpa using not_lt.mp htb) h2
        obtain ⟨q, hq, hqt⟩ := hcov s hsm (by simp at h1s; omega) h2s
        rcases List.mem_cons.mp hq with rfl | hq
        · simp at h1s
          omega
        · exact ⟨q, hq, hqt⟩

omit [DecidableEq V] in
lemma filter_lt_eq_cons {m : ℤ} {x : TInstant V} (hx : x ∈ instants) (hmx : m < x.t)
    (hgap : ∀ s ∈ instants, m < s.t → x.t ≤ s.t) :
    instants.filter (fun s => m < s.t) = x :: instants.filter fun s => x.t < s.t := by
  obtain ⟨pre, post, rfl⟩ := List.append_of_mem hx
  obtain ⟨-, hpost, hcross⟩ := List.pairwise_append.mp hs
  have hpre : ∀ a ∈ pre, a.t < x.t := fun a ha => hcross a ha x (List.mem_cons_self _ _)
  have hpost' : ∀ b ∈ post, x.t < b.t := fun b hb => List.rel_of_pairwise_cons hpost hb
  have h1 : pre.filter (fun s => m < s.t) = [] := List.filter_eq_nil_iff.mpr fun a ha => by
    simpa using (hgap a (by simp [ha])).mt (not_le.mpr (hpre a ha))
  have h2 : pre.filter (fun s => x.t < s.t) = [] := List.filter_eq_nil_iff.mpr fun a ha => by
    simpa using (hpre a ha).le
  have h3 : post.filter (fun s => m < s.t) = post := List.filter_eq_self.mpr fun b hb => by
    simpa using hmx.trans (hpost' b hb)
  have h4 : post.filter (fun s => x.t < s.t) = post := List.filter_eq_self.mpr fun b hb => by
    simpa using hpost' b hb
  simp [List.filter_append, List.filter_cons, h1, h2, h3, h4, hmx]

omit [DecidableEq V] in
lemma filter_lt_eq_cons_iff {m : ℤ} {x : TInstant V} {tail : List (TInstant V)}
    (h : instants.filter (fun s => m < s.t) = x :: tail) :
    x ∈ instants ∧ m < x.t ∧ (∀ s ∈ instants, m < s.t → x.t ≤ s.t) ∧
      tail = instants.filter fun s => x.t < s.t := by
  have hx : x ∈ instants.filter (fun s => m < s.t) := h ▸ List.mem_cons_self _ _
  obtain ⟨hxm, hmx⟩ := List.mem_filter.mp hx
  have hgap : ∀ s ∈ instants, m < s.t → x.t ≤ s.t := fun s hsm hms =>
    head_le_of_mem (h ▸ hs.filter _) (h ▸ List.mem_filter.mpr ⟨hsm, by simpa using hms⟩)
  refine ⟨hxm, by simpa using hmx, hgap, ?_⟩
  rw [filter_lt_eq_cons hs hxm (by simpa using hmx) hgap] at h
  exact (List.cons.inj h).2.symm

omit [DecidableEq V] in
lemma le_lastT_of_mem {x : TInstant V} (hx : x ∈ instants) : x.t ≤ lastT instants :=
  let ⟨_, hk⟩ := List.mem_iff_getElem?.mp hx
  le_lastT_of_getElem? hs hk

omit [DecidableEq V] hs in
lemma lastT_le_of_filter_eq_nil (hne : instants ≠ []) {m : ℤ}
    (h : instants.filter (fun s => m < s.t) = []) : lastT instants ≤ m := by
  obtain ⟨last, hlast⟩ := Option.isSome_iff_exists.mp (List.getLast?_isSome.mpr hne)
  have := List.filter_eq_nil_iff.mp h last (List.mem_of_getLast?_eq_some hlast)
  simp only [decide_eq_true_eq, not_lt] at this
  simpa [lastT, hlast] using this

omit [DecidableEq V] hs in
lemma exists_mem_t_eq_lastT (hne : instants ≠ []) : ∃ x ∈ instants, x.t = lastT instants := by
  obtain ⟨last, hlast⟩ := Option.isSome_iff_exists.mp (List.getLast?_isSome.mpr hne)
  exact ⟨last, List.mem_of_getLast?_eq_some hlast, by simp [lastT, hlast]⟩

end Refinement

lemma tsequenceAtTimestamp_liesOn (bt : BaseType V) {seq : TSequence V B} (hwf : seq.WellFormed)
    {t : ℤ} (hc : containsPeriodTimestamp seq.period t = true) :
    ∃ inst, tsequenceAtTimestamp bt seq t = some inst ∧ inst.t = t ∧
      LiesOn bt seq.linear seq.instants inst := by
  obtain ⟨v, hv⟩ := Option.isSome_iff_exists.mp ((TSequence.valueAt_isSome hwf t).trans hc)
  refine ⟨⟨v, t⟩, by rw [tsequenceAtTimestamp_eq_valueAt bt hwf, hv]; rfl, rfl, ?_⟩
  rw [TSequence.valueAt, if_pos hc] at hv
  exact hv

lemma containsPeriodTimestamp_of_inside {seq : TSequence V B} (hwf : seq.WellFormed) {t : ℤ}
    (h1 : firstT seq.instants < t) (h2 : t < lastT seq.instants) :
    containsPeriodTimestamp seq.period t = true := by
  rw [hwf.period]
  simp [periodOf, containsPeriodTimestamp, h1, h2]

/-- The two values `tsequence_intersection` gives at a crossing before the ends of the
segments, when one of them is linear, are the values of the segments there. -/
lemma tsequenceIntersection_values {bt : BaseType V} {start1 end1 start2 end2 : TInstant V}
    {linear1 linear2 : Bool} (hl : linear1 = true ∨ linear2 = true) {v1 v2 : V} {t : ℤ}
    (h : tsequenceIntersection bt start1 end1 linear1 start2 end2 linear2 = some (v1, v2, t))
    (h1 : t < end1.t) (h2 : t < end2.t) :
    v1 = tsequenceValueAtTimestamp1 bt start1 end1 linear1 t ∧
      v2 = tsequenceValueAtTimestamp1 bt start2 end2 linear2 t := by
  unfold tsequenceIntersection at h
  cases linear1 <;> cases linear2 <;> simp only [Bool.not_false, Bool.not_true, if_true,
    if_false, Bool.false_eq_true, or_self] at h hl
  · obtain ⟨r, hr, hrv⟩ := Option.map_eq_some'.mp h
    simp only [Prod.mk.injEq] at hrv
    obtain ⟨rfl, rfl, rfl⟩ := hrv
    exact ⟨(tsequenceValueAtTimestamp1_step h1).symm, tlinearseqIntersectionValue_value hr⟩
  · obtain ⟨r, hr, hrv⟩ := Option.map_eq_some'.mp h
    simp only [Prod.mk.injEq] at hrv
    obtain ⟨rfl, rfl, rfl⟩ := hrv
    exact ⟨tlinearseqIntersectionValue_value hr, (tsequenceValueAtTimestamp1_step h2).symm⟩
  · obtain ⟨r, -, hrv⟩ := Option.map_eq_some'.mp h
    simp only [Prod.mk.injEq] at hrv
    obtain ⟨rfl, rfl, rfl⟩ := hrv
    exact ⟨rfl, rfl⟩

/-! ## The loop -/

/-- A timestamp that the loop of `synchronize_tsequence_tsequence` merges: the lower
bound of the intersection or the timestamp of an instant of either sequence, from
`lower` to `upper`. -/
def SyncTime (seq1 seq2 : TSequence V B) (lower upper t : ℤ) : Prop :=
  lower ≤ t ∧ t ≤ upper ∧
    (t = lower ∨ (∃ s ∈ seq1.instants, s.t = t) ∨ ∃ s ∈ seq2.instants, s.t = t)

/-- Every crossing that `tsequence_intersection` finds between the segments that two
consecutive merged timestamps form on `seq1` and on `seq2` lies strictly inside the
segments. -/
def CrossingsInside (bt : BaseType V) (seq1 seq2 : TSequence V B) (lower upper : ℤ) : Prop :=
  ∀ a1 b1 a2 b2 : TInstant V, LiesOn bt seq1.linear seq1.instants a1 →
    LiesOn bt seq1.linear seq1.instants b1 → LiesOn bt seq2.linear seq2.instants a2 →
    LiesOn bt seq2.linear seq2.instants b2 → a1.t = a2.t → b1.t = b2.t →
    SyncTime seq1 seq2 lower upper a1.t → SyncTime seq1 seq2 lower upper b1.t → a1.t < b1.t →
    (∀ t, SyncTime seq1 seq2 lower upper t → t ≤ a1.t ∨ b1.t ≤ t) →
    ∀ r ∈ tsequenceIntersection bt a1 b1 seq1.linear a2 b2 seq2.linear, a1.t < r.2.2 ∧ r.2.2 < b1.t

/-- What the loop of `synchronize_tsequence_tsequence` relies on: two well-formed
sequences (of a lawful base type where linear) spanning together `[lower, upper]`, one
of them ending at `upper`, with crossings strictly inside the segments when asked for. -/
structure SyncSetting (bt : BaseType V) (seq1 seq2 : TSequence V B) (crossings : Bool)
    (lower upper : ℤ) : Prop where
  wf1 : seq1.WellFormed
  wf2 : seq2.WellFormed
  lawful1 : seq1.linear = true → LawfulBaseType bt
  lawful2 : seq2.linear = true → LawfulBaseType bt
  lower_lt_upper : lower < upper
  lower1 : firstT seq1.instants ≤ lower
  lower2 : firstT seq2.instants ≤ lower
  upper1 : upper ≤ lastT seq1.instants
  upper2 : upper ≤ lastT seq2.instants
  ends : lastT seq1.instants = upper ∨ lastT seq2.instants = upper
  inside : crossings = true → CrossingsInside bt seq1 seq2 lower upper

/-- The pair `p` the loop added last, before its current instants `inst1` and `inst2`:
at one merged timestamp from `lower` on, lying on the two sequences, with no instant of
either sequence between it and the current instant of that sequence. -/
structure SyncAfter (bt : BaseType V) (seq1 seq2 : TSequence V B) (lower : ℤ)
    (p : TInstant V × TInstant V) (inst1 inst2 : TInstant V) : Prop where
  sameTime : p.1.t = p.2.t
  lower_le : lower ≤ p.1.t
  lt1 : p.1.t < inst1.t
  lt2 : p.1.t < inst2.t
  on1 : LiesOn bt seq1.linear seq1.instants p.1
  on2 : LiesOn bt seq2.linear seq2.instants p.2
  mem1 : inst1 ∈ seq1.instants
  mem2 : inst2 ∈ seq2.instants
  gap1 : ∀ s ∈ seq1.instants, p.1.t < s.t → inst1.t ≤ s.t
  gap2 : ∀ s ∈ seq2.instants, p.1.t < s.t → inst2.t ≤ s.t
  origin : p.1.t = lower ∨ (∃ s ∈ seq1.instants, s.t = p.1.t) ∨ ∃ s ∈ seq2.instants, s.t = p.1.t

/-- A state of the loop: the current instants lie on the two sequences, the instants
after them are still to be read, both are at `lower` at the start, and later they come
after the pair `prev` added last. -/
structure SyncState (bt : BaseType V) (seq1 seq2 : TSequence V B) (lower : ℤ)
    (prev : Option (TInstant V × TInstant V)) (inst1 : TInstant V) (rest1 : List (TInstant V))
    (inst2 : TInstant V) (rest2 : List (TInstant V)) : Prop where
  on1 : LiesOn bt seq1.linear seq1.instants inst1
  on2 : LiesOn bt seq2.linear seq2.instants inst2
  rest1_eq : rest1 = seq1.instants.filter fun s => inst1.t < s.t
  rest2_eq : rest2 = seq2.instants.filter fun s => inst2.t < s.t
  start : prev = none → inst1.t = lower ∧ inst2.t = lower
  after : ∀ p ∈ prev, SyncAfter bt seq1 seq2 lower p inst1 inst2

namespace SyncState

variable {bt : BaseType V} {seq1 seq2 : TSequence V B} {lower : ℤ}
  {prev : Option (TInstant V × TInstant V)} {inst1 inst2 : TInstant V}
  {rest1 rest2 : List (TInstant V)} (hst : SyncState bt seq1 seq2 lower prev inst1 rest1 inst2 rest2)
include hst

lemma after_lt : ∀ p ∈ prev, p.1.t < min inst1.t inst2.t := fun p hp =>
  lt_min (hst.after p hp).lt1 ((hst.after p hp).sameTime ▸ (hst.after p hp).lt2)

lemma lower_le : lower ≤ min inst1.t inst2.t := by
  cases prev with
  | none => have := hst.start rfl; omega
  | some p => exact (hst.after p rfl).lower_le.trans (hst.after_lt p rfl).le

lemma origin : min inst1.t inst2.t = lower ∨ (∃ s ∈ seq1.instants, s.t = min inst1.t inst2.t) ∨
    ∃ s ∈ seq2.instants, s.t = min inst1.t inst2.t := by
  cases prev with
  | none => have := hst.start rfl; left; omega
  | some p =>
    have hp := hst.after p rfl
    rcases min_choice inst1.t inst2.t with h | h <;> rw [h]
    · exact .inr (.inl ⟨inst1, hp.mem1, rfl⟩)
    · exact .inr (.inr ⟨inst2, hp.mem2, rfl⟩)

lemma le_of_mem1 : ∀ s ∈ seq1.instants, lower ≤ s.t → (∀ p ∈ prev, p.1.t < s.t) →
    inst1.t ≤ s.t := fun s hsm hls hps => by
  cases prev with
  | none => have := hst.start rfl; omega
  | some p => exact (hst.after p rfl).gap1 s hsm (hps p rfl)

lemma le_of_mem2 : ∀ s ∈ seq2.instants, lower ≤ s.t → (∀ p ∈ prev, p.1.t < s.t) →
    inst2.t ≤ s.t := fun s hsm hls hps => by
  cases prev with
  | none => have := hst.start rfl; omega
  | some p => exact (hst.after p rfl).gap2 s hsm ((hst.after p rfl).sameTime ▸ hps p rfl)

end SyncState

/-- What the loop does after adding the pair `prev`, with the instants `left1` and
`left2` of the two sequences still to read. -/
def synchronizeContinue (bt : BaseType V) (seq1 seq2 : TSequence V B) (crossings : Bool)
    (upper : ℤ) (prev : TInstant V × TInstant V) :
    List (TInstant V) → List (TInstant V) → Except String (List (TInstant V × TInstant V))
  | next1 :: rest1, next2 :: rest2 =>
    synchronizeLoop bt seq1 seq2 crossings upper (some prev) next1 rest1 next2 rest2
  | _, _ => pure []

/-- What the loop returns after the pair `prev`: pairs of instants at one timestamp
lying on the two sequences, in time order after `prev` from `lower` to `upper`, the
first at `lower` when nothing was added before and the last at `upper`, with a pair at
every timestamp of either sequence after `prev` up to `upper`. -/
structure SyncPairs (bt : BaseType V) (seq1 seq2 : TSequence V B) (lower upper : ℤ)
    (prev : Option (TInstant V × TInstant V)) (pairs : List (TInstant V × TInstant V)) : Prop where
  sameTime : ∀ x ∈ pairs, x.1.t = x.2.t
  on1 : ∀ x ∈ pairs, LiesOn bt seq1.linear seq1.instants x.1
  on2 : ∀ x ∈ pairs, LiesOn bt seq2.linear seq2.instants x.2
  bounds : ∀ x ∈ pairs, lower ≤ x.1.t ∧ x.1.t ≤ upper
  sorted : pairs.Pairwise fun x y => x.1.t < y.1.t
  after : ∀ p ∈ prev, ∀ x ∈ pairs, p.1.t < x.1.t
  first : prev = none → ∀ x ∈ pairs.head?, x.1.t = lower
  last : ∀ x ∈ pairs.getLast?, x.1.t = upper
  covers1 : ∀ s ∈ seq1.instants, lower ≤ s.t → s.t ≤ upper → (∀ p ∈ prev, p.1.t < s.t) →
    ∃ x ∈ pairs, x.1.t = s.t
  covers2 : ∀ s ∈ seq2.instants, lower ≤ s.t → s.t ≤ upper → (∀ p ∈ prev, p.1.t < s.t) →
    ∃ x ∈ pairs, x.1.t = s.t

lemma synchronizeCrossing_pairwise {bt : BaseType V} {linear1 linear2 crossings : Bool}
    {prev : Option (TInstant V × TInstant V)} {inst1 inst2 : TInstant V}
    (r : TInstant V × TInstant V → TInstant V × TInstant V → Prop) :
    (synchronizeCrossing bt linear1 linear2 crossings prev inst1 inst2).Pairwise r := by
  unfold synchronizeCrossing
  repeat' split
  all_goals simp

namespace SyncPairs

variable {bt : BaseType V} {seq1 seq2 : TSequence V B} {lower upper : ℤ}

lemma nil {p : TInstant V × TInstant V} (hp : p.1.t = upper) :
    SyncPairs bt seq1 seq2 lower upper (some p) [] :=
  ⟨by simp, by simp, by simp, by simp, .nil, by simp, by simp, by simp,
    fun s _ _ hsu hps => absurd (hps p rfl) (by omega),
    fun s _ _ hsu hps => absurd (hps p rfl) (by omega)⟩

/-- The pairs of one turn of the loop: the crossing `cross` before a new pair `(a, b)` at
`m`, followed by the pairs the loop returns after `(a, b)`, empty only when `m = upper`. -/
lemma cons {prev : Option (TInstant V × TInstant V)} {cross more : List (TInstant V × TInstant V)}
    {a b : TInstant V} {m : ℤ}
    (hcross : ∀ x ∈ cross, x.1.t = x.2.t ∧ x.1.t < m ∧ lower ≤ x.1.t ∧
      (∀ p ∈ prev, p.1.t < x.1.t) ∧ LiesOn bt seq1.linear seq1.instants x.1 ∧
        LiesOn bt seq2.linear seq2.instants x.2)
    (hcrossNone : prev = none → cross = []) (hcrossSorted : cross.Pairwise fun x y => x.1.t < y.1.t)
    (hat : a.t = m) (hbt : b.t = m) (ha : LiesOn bt seq1.linear seq1.instants a)
    (hb : LiesOn bt seq2.linear seq2.instants b) (hlow : lower ≤ m) (hmu : m ≤ upper)
    (hafter : ∀ p ∈ prev, p.1.t < m) (hfirst : prev = none → m = lower)
    (hge1 : ∀ s ∈ seq1.instants, lower ≤ s.t → (∀ p ∈ prev, p.1.t < s.t) → m ≤ s.t)
    (hge2 : ∀ s ∈ seq2.instants, lower ≤ s.t → (∀ p ∈ prev, p.1.t < s.t) → m ≤ s.t)
    (hmore : SyncPairs bt seq1 seq2 lower upper (some (a, b)) more) (hstop : more = [] → m = upper) :
    SyncPairs bt seq1 seq2 lower upper prev (cross ++ (a, b) :: more) := by
  have hmore_after : ∀ y ∈ more, m < y.1.t := fun y hy => hat ▸ hmore.after (a, b) rfl y hy
  have hcovers : ∀ s : TInstant V, m ≤ s.t → s.t ≤ upper → (m < s.t → ∃ x ∈ more, x.1.t = s.t) →
      ∃ x ∈ cross ++ (a, b) :: more, x.1.t = s.t := fun s hms hsu hlt => by
    rcases hms.lt_or_eq with hlt' | heq
    · obtain ⟨x, hx, hxt⟩ := hlt hlt'
      exact ⟨x, by simp [hx], hxt⟩
    · exact ⟨(a, b), by simp, show a.t = s.t by omega⟩
  refine ⟨?sameTime, ?on1, ?on2, ?bounds, ?sorted, ?after, ?first, ?last, ?covers1, ?covers2⟩
  case sameTime =>
    simp only [List.mem_append, List.mem_cons]
    rintro x (hx | rfl | hx)
    exacts [(hcross x hx).1, by simp [hat, hbt], hmore.sameTime x hx]
  case on1 =>
    simp only [List.mem_append, List.mem_cons]
    rintro x (hx | rfl | hx)
    exacts [(hcross x hx).2.2.2.2.1, ha, hmore.on1 x hx]
  case on2 =>
    simp only [List.mem_append, List.mem_cons]
    rintro x (hx | rfl | hx)
    exacts [(hcross x hx).2.2.2.2.2, hb, hmore.on2 x hx]
  case bounds =>
    simp only [List.mem_append, List.mem_cons]
    rintro x (hx | rfl | hx)
    · have := hcross x hx
      omega
    · simp only [hat]
      omega
    · exact hmore.bounds x hx
  case sorted =>
    refine List.pairwise_append.mpr ⟨hcrossSorted, List.pairwise_cons.mpr
      ⟨fun y hy => hat ▸ hmore_after y hy, hmore.sorted⟩, fun x hx y hy => ?_⟩
    have := (hcross x hx).2.1
    rcases List.mem_cons.mp hy with rfl | hy
    · simp only [hat]
      exact this
    · exact this.trans (hmore_after y hy)
  case after =>
    intro p hp
    simp only [List.mem_append, List.mem_cons]
    rintro x (hx | rfl | hx)
    · exact (hcross x hx).2.2.2.1 p hp
    · simp only [hat]
      exact hafter p hp
    · exact (hafter p hp).trans (hmore_after x hx)
  case first =>
    intro hp x hx
    rw [hcrossNone hp, List.nil_append, List.head?_cons, Option.mem_some_iff] at hx
    subst hx
    simp only [hat, hfirst hp]
  case last =>
    intro x hx
    rw [List.getLast?_append, List.getLast?_cons] at hx
    cases hlast : more.getLast? with
    | none =>
      simp only [hlast, Option.getD_none, Option.or_some, Option.mem_some_iff] at hx
      subst hx
      simp only [hat, hstop (List.getLast?_eq_none_iff.mp hlast)]
    | some y =>
      simp only [hlast, Option.getD_some, Option.or_some, Option.mem_some_iff] at hx
      exact hx ▸ hmore.last y hlast
  case covers1 =>
    intro s hsm hls hsu hps
    exact hcovers s (hge1 s hsm hls hps) hsu fun hlt =>
      hmore.covers1 s hsm hls hsu fun p hp => by cases hp; show a.t < s.t; omega
  case covers2 =>
    intro s hsm hls hsu hps
    exact hcovers s (hge2 s hsm hls hps) hsu fun hlt =>
      hmore.covers2 s hsm hls hsu fun p hp => by cases hp; show a.t < s.t; omega

end SyncPairs

lemma synchronizeLoop_of_upper_lt {bt : BaseType V} {seq1 seq2 : TSequence V B} {crossings : Bool}
    {upper : ℤ} {prev : Option (TInstant V × TInstant V)} {inst1 inst2 : TInstant V}
    {rest1 rest2 : List (TInstant V)} (h1 : upper < inst1.t) (h2 : upper < inst2.t) :
    synchronizeLoop bt seq1 seq2 crossings upper prev inst1 rest1 inst2 rest2 = pure [] := by
  unfold synchronizeLoop
  dsimp only
  rw [if_neg (by omega)]

section Loop

variable {bt : BaseType V} {seq1 seq2 : TSequence V B} {crossings : Bool} {lower upper : ℤ}
  (hset : SyncSetting bt seq1 seq2 crossings lower upper)
include hset

/-- One turn of the loop from a state whose earlier current timestamp `m` is at most
`upper`: it adds a pair of instants at `m` lying on the two sequences, after the
crossing if any, and goes on with the instants of both sequences after `m`. -/
lemma synchronizeLoop_step {prev : Option (TInstant V × TInstant V)} {inst1 inst2 : TInstant V}
    {rest1 rest2 : List (TInstant V)} (hst : SyncState bt seq1 seq2 lower prev inst1 rest1 inst2 rest2)
    {m : ℤ} (hm : m = min inst1.t inst2.t) (hmu : m ≤ upper) :
    ∃ a b, a.t = m ∧ b.t = m ∧ LiesOn bt seq1.linear seq1.instants a ∧
      LiesOn bt seq2.linear seq2.instants b ∧
      (seq1.instants.filter fun s => m < s.t).length +
        (seq2.instants.filter fun s => m < s.t).length ≤ rest1.length + rest2.length + 1 ∧
      synchronizeLoop bt seq1 seq2 crossings upper prev inst1 rest1 inst2 rest2 =
        (fun pairs => synchronizeCrossing bt seq1.linear seq2.linear crossings prev a b ++
          (a, b) :: pairs) <$> synchronizeContinue bt seq1 seq2 crossings upper (a, b)
            (seq1.instants.filter fun s => m < s.t) (seq2.instants.filter fun s => m < s.t) := by
  have hs1 := chain'_t_iff_pairwise.mp hset.wf1.increasing
  have hs2 := chain'_t_iff_pairwise.mp hset.wf2.increasing
  have hguard : inst1.t ≤ upper ∨ inst2.t ≤ upper := by omega
  rcases lt_trichotomy inst1.t inst2.t with hlt | heq | hgt
  · obtain ⟨p, rfl⟩ : ∃ p, prev = some p := by
      cases prev with
      | none => exact absurd (hst.start rfl) (by omega)
      | some p => exact ⟨p, rfl⟩
    have hp := hst.after p rfl
    have := hp.lt1
    obtain ⟨inst, hat, hit, hon⟩ := tsequenceAtTimestamp_liesOn bt hset.wf2
      (containsPeriodTimestamp_of_inside hset.wf2 (by linarith [hset.lower2, hp.lower_le, hp.lt1])
        (hlt.trans_le (le_lastT_of_mem hs2 hp.mem2)))
    have hleft2 : (seq2.instants.filter fun s => m < s.t) = inst2 :: rest2 := by
      rw [hst.rest2_eq]
      exact filter_lt_eq_cons hs2 hp.mem2 (by omega) fun s hsm hms => hp.gap2 s hsm (by omega)
    have hleft1 : (seq1.instants.filter fun s => m < s.t) = rest1 := by
      rw [hst.rest1_eq, hm, min_eq_left hlt.le]
    refine ⟨inst1, inst, by omega, by omega, hst.on1, hon, by simp only [hleft1, hleft2, List.length_cons]; omega, ?_⟩
    rw [hleft1, hleft2]
    unfold synchronizeLoop
    dsimp only
    rw [if_pos hguard, if_neg hlt.ne, if_pos hlt, hat]
    cases rest1 <;> rfl
  · have hleft1 : (seq1.instants.filter fun s => m < s.t) = rest1 := by
      rw [hst.rest1_eq, hm, min_eq_left heq.le]
    have hleft2 : (seq2.instants.filter fun s => m < s.t) = rest2 := by
      rw [hst.rest2_eq, hm, min_eq_right heq.ge]
    refine ⟨inst1, inst2, by omega, by omega, hst.on1, hst.on2, by simp only [hleft1, hleft2, List.length_cons]; omega, ?_⟩
    rw [hleft1, hleft2]
    unfold synchronizeLoop
    dsimp only
    rw [if_pos hguard, if_pos heq]
    cases rest1 <;> cases rest2 <;> rfl
  · obtain ⟨p, rfl⟩ : ∃ p, prev = some p := by
      cases prev with
      | none => exact absurd (hst.start rfl) (by omega)
      | some p => exact ⟨p, rfl⟩
    have hp := hst.after p rfl
    have := hp.lt2
    have := hp.sameTime
    obtain ⟨inst, hat, hit, hon⟩ := tsequenceAtTimestamp_liesOn bt hset.wf1
      (containsPeriodTimestamp_of_inside hset.wf1 (by linarith [hset.lower1, hp.lower_le, hp.lt2,
        hp.sameTime]) (hgt.trans_le (le_lastT_of_mem hs1 hp.mem1)))
    have hleft1 : (seq1.instants.filter fun s => m < s.t) = inst1 :: rest1 := by
      rw [hst.rest1_eq]
      exact filter_lt_eq_cons hs1 hp.mem1 (by omega) fun s hsm hms => hp.gap1 s hsm (by omega)
    have hleft2 : (seq2.instants.filter fun s => m < s.t) = rest2 := by
      rw [hst.rest2_eq, hm, min_eq_right hgt.le]
    refine ⟨inst, inst2, by omega, by omega, hon, hst.on2, by simp only [hleft1, hleft2, List.length_cons]; omega, ?_⟩
    rw [hleft1, hleft2]
    unfold synchronizeLoop
    dsimp only
    rw [if_pos hguard, if_neg hgt.ne', if_neg (not_lt.mpr hgt.le), hat]
    cases rest2 <;> rfl

/-- The crossing the loop adds between the pair `p` it added last and a new pair
`(a, b)` at a later timestamp, with no instant of either sequence in between, is at one
timestamp strictly between them and lies on the two sequences. -/
lemma synchronizeCrossing_spec {p : TInstant V × TInstant V} {a b : TInstant V}
    (hp1 : LiesOn bt seq1.linear seq1.instants p.1) (hp2 : LiesOn bt seq2.linear seq2.instants p.2)
    (ha : LiesOn bt seq1.linear seq1.instants a) (hb : LiesOn bt seq2.linear seq2.instants b)
    (hpt : p.1.t = p.2.t) (hab : a.t = b.t) (hlow : lower ≤ p.1.t) (hpa : p.1.t < a.t)
    (hau : a.t ≤ upper) (hgap1 : ∀ s ∈ seq1.instants, ¬(p.1.t < s.t ∧ s.t < a.t))
    (hgap2 : ∀ s ∈ seq2.instants, ¬(p.1.t < s.t ∧ s.t < a.t))
    (hporig : p.1.t = lower ∨ (∃ s ∈ seq1.instants, s.t = p.1.t) ∨ ∃ s ∈ seq2.instants, s.t = p.1.t)
    (haorig : a.t = lower ∨ (∃ s ∈ seq1.instants, s.t = a.t) ∨ ∃ s ∈ seq2.instants, s.t = a.t) :
    ∀ x ∈ synchronizeCrossing bt seq1.linear seq2.linear crossings (some p) a b,
      x.1.t = x.2.t ∧ p.1.t < x.1.t ∧ x.1.t < a.t ∧
        LiesOn bt seq1.linear seq1.instants x.1 ∧ LiesOn bt seq2.linear seq2.instants x.2 := by
  obtain ⟨p1, p2⟩ := p
  dsimp only at hp1 hp2 hpt hlow hpa hgap1 hgap2 hporig ⊢
  intro x hx
  unfold synchronizeCrossing at hx
  split_ifs at hx with hc
  · cases hr : tsequenceIntersection bt p1 a seq1.linear p2 b seq2.linear with
    | none => simp [hr] at hx
    | some r =>
      obtain ⟨v1, v2, tc⟩ := r
      simp only [hr, List.mem_singleton] at hx
      subst hx
      have hnext : ∀ t, SyncTime seq1 seq2 lower upper t → t ≤ p1.t ∨ a.t ≤ t := by
        rintro t ⟨hlt, -, rfl | ⟨s, hs, rfl⟩ | ⟨s, hs, rfl⟩⟩
        · exact .inl hlow
        · have := hgap1 s hs
          omega
        · have := hgap2 s hs
          omega
      obtain ⟨hlo, hhi⟩ := hset.inside hc.1 p1 a p2 b hp1 ha hp2 hb hpt hab
        ⟨hlow, by omega, hporig⟩ ⟨by omega, hau, haorig⟩ hpa hnext _ hr
      obtain ⟨rfl, rfl⟩ := tsequenceIntersection_values hc.2 hr hhi (hab ▸ hhi)
      dsimp only at hlo hhi ⊢
      refine ⟨rfl, hlo, hhi, ?_, ?_⟩
      · exact instantsValueAt_of_between (chain'_t_iff_pairwise.mp hset.wf1.increasing)
          hset.lawful1 hp1 ha (fun _ => rfl) hpa hgap1 hlo.le hhi
      · exact instantsValueAt_of_between (chain'_t_iff_pairwise.mp hset.wf2.increasing)
          hset.lawful2 hp2 hb (fun _ => rfl) (by omega)
          (fun s hsm h => hgap2 s hsm (by omega)) (t := tc) (by omega) (by omega)
  · simp at hx

/-- The crossing one turn of the loop adds before its new pair at `m`. -/
lemma synchronizeCrossing_facts {prev : Option (TInstant V × TInstant V)} {inst1 inst2 : TInstant V}
    {rest1 rest2 : List (TInstant V)} (hst : SyncState bt seq1 seq2 lower prev inst1 rest1 inst2 rest2)
    {a b : TInstant V} {m : ℤ} (hm : m = min inst1.t inst2.t) (hat : a.t = m) (hbt : b.t = m)
    (ha : LiesOn bt seq1.linear seq1.instants a) (hb : LiesOn bt seq2.linear seq2.instants b)
    (hmu : m ≤ upper) :
    ∀ x ∈ synchronizeCrossing bt seq1.linear seq2.linear crossings prev a b,
      x.1.t = x.2.t ∧ x.1.t < m ∧ lower ≤ x.1.t ∧ (∀ p ∈ prev, p.1.t < x.1.t) ∧
        LiesOn bt seq1.linear seq1.instants x.1 ∧ LiesOn bt seq2.linear seq2.instants x.2 := by
  cases prev with
  | none => simp [synchronizeCrossing]
  | some p =>
    have hp := hst.after p rfl
    have := hp.lt1
    have := hp.lt2
    have := hp.sameTime
    intro x hx
    obtain ⟨h12, hpx, hxa, h1, h2⟩ := synchronizeCrossing_spec hset hp.on1 hp.on2 ha hb
      hp.sameTime (hat.trans hbt.symm) hp.lower_le (by omega) (by omega)
      (fun s hsm ⟨hps, hsa⟩ => by have := hp.gap1 s hsm hps; omega)
      (fun s hsm ⟨hps, hsa⟩ => by have := hp.gap2 s hsm (by omega); omega) hp.origin
      (by rw [hat, hm]; exact hst.origin) x hx
    have := hp.lower_le
    refine ⟨h12, by omega, by omega, fun q hq => ?_, h1, h2⟩
    cases hq
    exact hpx

lemma eq_upper_of_filter_eq_nil1 {m : ℤ} (hmu : m ≤ upper)
    (h : seq1.instants.filter (fun s => m < s.t) = []) : m = upper :=
  le_antisymm hmu (hset.upper1.trans (lastT_le_of_filter_eq_nil hset.wf1.nonempty h))

lemma eq_upper_of_filter_eq_nil2 {m : ℤ} (hmu : m ≤ upper)
    (h : seq2.instants.filter (fun s => m < s.t) = []) : m = upper :=
  le_antisymm hmu (hset.upper2.trans (lastT_le_of_filter_eq_nil hset.wf2.nonempty h))

lemma eq_upper_of_upper_lt {m : ℤ} (hmu : m ≤ upper)
    (h1 : ∀ s ∈ seq1.instants, m < s.t → upper < s.t)
    (h2 : ∀ s ∈ seq2.instants, m < s.t → upper < s.t) : m = upper := by
  refine le_antisymm hmu (not_lt.mp fun hlt => ?_)
  rcases hset.ends with hend | hend
  · obtain ⟨x, hx, hxt⟩ := exists_mem_t_eq_lastT hset.wf1.nonempty
    have := h1 x hx (by omega)
    omega
  · obtain ⟨x, hx, hxt⟩ := exists_mem_t_eq_lastT hset.wf2.nonempty
    have := h2 x hx (by omega)
    omega

/-- The loop from any state whose earlier current timestamp is at most `upper` returns
pairs as `SyncPairs` says, and at least one: by strong induction on the number of
instants it still has to read. -/
theorem synchronizeLoop_spec (n : ℕ) : ∀ {prev : Option (TInstant V × TInstant V)}
    {inst1 inst2 : TInstant V} {rest1 rest2 : List (TInstant V)},
    rest1.length + rest2.length = n → SyncState bt seq1 seq2 lower prev inst1 rest1 inst2 rest2 →
    min inst1.t inst2.t ≤ upper → ∃ pairs,
      synchronizeLoop bt seq1 seq2 crossings upper prev inst1 rest1 inst2 rest2 = .ok pairs ∧
        SyncPairs bt seq1 seq2 lower upper prev pairs ∧ pairs ≠ [] := by
  have hs1 := chain'_t_iff_pairwise.mp hset.wf1.increasing
  have hs2 := chain'_t_iff_pairwise.mp hset.wf2.increasing
  induction n using Nat.strong_induction_on with
  | _ n ih =>
  intro prev inst1 inst2 rest1 rest2 hn hst hmu
  set m := min inst1.t inst2.t with hm
  obtain ⟨a, b, hat, hbt, ha, hb, hlen, heq⟩ := synchronizeLoop_step hset hst hm hmu
  have hlow := hst.lower_le
  -- the pairs the loop returns after `(a, b)`
  obtain ⟨more, hmore, hM, hstop⟩ : ∃ more, synchronizeContinue bt seq1 seq2 crossings upper (a, b)
      (seq1.instants.filter fun s => m < s.t) (seq2.instants.filter fun s => m < s.t) = .ok more ∧
      SyncPairs bt seq1 seq2 lower upper (some (a, b)) more ∧ (more = [] → m = upper) := by
    cases hleft1 : seq1.instants.filter fun s => m < s.t with
    | nil =>
      exact ⟨[], rfl, SyncPairs.nil (by rw [hat, eq_upper_of_filter_eq_nil1 hset hmu hleft1]),
        fun _ => eq_upper_of_filter_eq_nil1 hset hmu hleft1⟩
    | cons next1 tail1 =>
    cases hleft2 : seq2.instants.filter fun s => m < s.t with
    | nil =>
      exact ⟨[], rfl, SyncPairs.nil (by rw [hat, eq_upper_of_filter_eq_nil2 hset hmu hleft2]),
        fun _ => eq_upper_of_filter_eq_nil2 hset hmu hleft2⟩
    | cons next2 tail2 =>
    obtain ⟨hm1, hlt1, hgap1, htail1⟩ := filter_lt_eq_cons_iff hs1 hleft1
    obtain ⟨hm2, hlt2, hgap2, htail2⟩ := filter_lt_eq_cons_iff hs2 hleft2
    by_cases hnext : min next1.t next2.t ≤ upper
    · have hst' : SyncState bt seq1 seq2 lower (some (a, b)) next1 tail1 next2 tail2 :=
        ⟨liesOn_of_mem hs1 hm1, liesOn_of_mem hs2 hm2, htail1, htail2, (nomatch ·),
          fun p hp => by
            cases hp
            exact ⟨hat.trans hbt.symm, hat ▸ hlow, hat ▸ hlt1, hat ▸ hlt2, ha, hb, hm1, hm2,
              fun s hsm h => hgap1 s hsm (hat ▸ h), fun s hsm h => hgap2 s hsm (hat ▸ h),
              by rw [hat]; exact hst.origin⟩⟩
      simp only [hleft1, hleft2, List.length_cons] at hlen
      obtain ⟨more, hmore, hM, hne⟩ := ih _ (by omega) rfl hst' hnext
      exact ⟨more, hmore, hM, fun h => absurd h hne⟩
    · have hstop := eq_upper_of_upper_lt hset hmu
        (fun s hsm hms => by have := hgap1 s hsm hms; omega)
        (fun s hsm hms => by have := hgap2 s hsm hms; omega)
      exact ⟨[], synchronizeLoop_of_upper_lt (by omega) (by omega),
        SyncPairs.nil (by rw [hat, hstop]), fun _ => hstop⟩
  refine ⟨_, by rw [heq, hmore]; rfl, ?_, by simp⟩
  exact SyncPairs.cons (synchronizeCrossing_facts hset hst hm hat hbt ha hb hmu)
    (fun h => by subst h; simp [synchronizeCrossing]) (synchronizeCrossing_pairwise _) hat hbt ha hb
    hlow hmu hst.after_lt (fun h => by have := hst.start h; omega)
    (fun s hsm hls hps => (min_le_left _ _).trans (hst.le_of_mem1 s hsm hls hps))
    (fun s hsm hls hps => (min_le_right _ _).trans (hst.le_of_mem2 s hsm hls hps)) hM hstop

end Loop

end TemporalSequence
