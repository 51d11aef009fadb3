import TemporalSequence.TNumber
import TemporalSequence.Proofs.RestrictPeriodset
import Mathlib.Tactic.NormNum

/-!
# Restriction to the complement of timestamps

`tsequence_minus_timestamp1` cuts a sequence at a timestamp of its period into the
part before it, which ends with an exclusive instant at the timestamp, and the part
after it, which starts with one. On a well-formed sequence the two parts denote the
sequence without the timestamp.

The merge loop of `tsequence_minus_timestampset1` walks the instants of the sequence
and the timestamps of the set together. A timestamp before the first instant clears
the lower bound flag as if it removed that instant, and when the instants run out
before the timestamps the sequence under construction is dropped.
-/

namespace TemporalSequence

variable {V B : Type} [DecidableEq V]

/-! ## Cutting a sequence at a timestamp -/

section Cut

variable {bt : BaseType V} (bx : BBoxOps V B) {seq : TSequence V B}
  (hbt : seq.linear = true → LawfulBaseType bt) (hwf : seq.WellFormed)
include hbt hwf

/-- The instants before `t` of a well-formed sequence, closed by an exclusive instant
at `t` carrying the value at `t` (with linear interpolation) or the previous value
(with step interpolation), make the sequence before `t`. -/
lemma tsequenceMake_cutBefore {t : ℤ} (hc : containsPeriodTimestamp seq.period t = true)
    {w vb : V} (hne : seq.instants.filter (fun inst => inst.t < t) ≠ [])
    (hb : instantsValueAt bt seq.linear seq.instants t = some vb) (hw : seq.linear = true → w = vb)
    (hstep : seq.linear = false →
      (seq.instants.filter (fun inst => inst.t < t)).getLast?.map TInstant.value = some w) :
    ∃ r, tsequenceMake bt bx (seq.instants.filter (fun inst => inst.t < t) ++ [⟨w, t⟩])
        seq.period.lowerInc false seq.linear false = .ok r ∧
      r.WellFormed ∧ r.linear = seq.linear ∧
      (∀ t', containsPeriodTimestamp r.period t' = true → t' < t) ∧
      ∀ t', r.valueAt bt t' = if t' < t then seq.valueAt bt t' else none := by
  have hs := chain'_t_iff_pairwise.mp hwf.increasing
  set F := seq.instants.filter (fun inst => inst.t < t)
  have hsF : (F ++ [(⟨w, t⟩ : TInstant V)]).Pairwise fun inst1 inst2 => inst1.t < inst2.t := by
    refine List.pairwise_append.mpr ⟨hs.filter _, List.pairwise_singleton _ _, fun a ha b hb => ?_⟩
    rw [List.mem_singleton.mp hb]
    simpa using (List.mem_filter.mp ha).2
  have hcheck : tsequenceMakeCheck (F ++ [⟨w, t⟩]) seq.period.lowerInc false seq.linear = .ok () := by
    refine tsequenceMakeCheck_eq_ok.mpr ⟨by simp, chain'_t_iff_pairwise.mpr hsF, ?_, ?_⟩
    · have := List.length_pos.mpr hne
      simp only [List.length_append, List.length_singleton]
      omega
    · rw [lastTwo?_append_singleton]
      cases hlin : seq.linear
      · obtain ⟨g, hg, rfl⟩ := Option.map_eq_some'.mp (hstep hlin)
        simp [hg]
      · simp
  have hmake : tsequenceMake bt bx (F ++ [⟨w, t⟩]) seq.period.lowerInc false seq.linear false =
      .ok ⟨F ++ [⟨w, t⟩], periodOf (F ++ [⟨w, t⟩]) seq.period.lowerInc false, seq.linear,
        bx.make (F ++ [⟨w, t⟩]) seq.period.lowerInc false⟩ :=
    tsequenceMake_eq_ok.mpr ⟨hcheck, by simp⟩
  refine ⟨_, hmake, tsequenceMake_wellFormed hmake, rfl, fun t' ht' => ?_, fun t' => ?_⟩
  · simpa [periodOf, lastT, List.getLast?_concat] using (containsPeriodTimestamp_iff.mp ht').2
  have hfirst : firstT (F ++ [(⟨w, t⟩ : TInstant V)]) = firstT seq.instants := by
    obtain ⟨x, hx⟩ := List.exists_mem_of_ne_nil _ hne
    obtain ⟨hxL, hxt⟩ := List.mem_filter.mp hx
    obtain ⟨a, l, hL⟩ := List.exists_cons_of_ne_nil hwf.nonempty
    rw [hL] at hxL hs
    have hat : a.t ≤ x.t := by
      rcases List.mem_cons.mp hxL with rfl | hxl
      · exact le_rfl
      · exact (List.rel_of_pairwise_cons hs hxl).le
    have hat' : a.t < t := hat.trans_lt (by simpa using hxt)
    simp [F, hL, List.filter_cons, hat']
  have hupper := (bounds_of_containsPeriodTimestamp hc).2
  rw [hwf.period] at hupper
  rw [tsequenceMake_valueAt hmake, TSequence.valueAt]
  by_cases ht' : t' < t
  · rw [if_pos ht', instantsValueAt_cutBack hbt hs hb hw ht', hwf.period]
    simp only [containsPeriodTimestamp, periodOf, hfirst, lastT, List.getLast?_concat] at hupper ⊢
    simp [ht', show t' < (Option.map TInstant.t seq.instants.getLast?).getD 0 by omega]
  · rw [if_neg ht']
    simp [containsPeriodTimestamp, periodOf, lastT, List.getLast?_concat, ht']

/-- An instant at `t` carrying the value at `t`, followed by the instants after `t`,
makes the sequence after `t`. -/
lemma tsequenceMake_cutAfter {t : ℤ} (hc : containsPeriodTimestamp seq.period t = true)
    {va : V} (ha : instantsValueAt bt seq.linear seq.instants t = some va)
    (hne : seq.instants.filter (fun inst => t < inst.t) ≠ [])
    (hend : ¬((!seq.linear) = true ∧ (lastTwo? ((⟨va, t⟩ : TInstant V) ::
      seq.instants.filter (fun inst => t < inst.t))).any (fun p => p.1.value ≠ p.2.value) ∧
      (!seq.period.upperInc) = true)) :
    ∃ r, tsequenceMake bt bx (⟨va, t⟩ :: seq.instants.filter (fun inst => t < inst.t))
        false seq.period.upperInc seq.linear false = .ok r ∧
      r.WellFormed ∧ r.linear = seq.linear ∧
      (∀ t', containsPeriodTimestamp r.period t' = true → t < t') ∧
      ∀ t', r.valueAt bt t' = if t < t' then seq.valueAt bt t' else none := by
  have hs := chain'_t_iff_pairwise.mp hwf.increasing
  set G := seq.instants.filter (fun inst => t < inst.t)
  have hsG : ((⟨va, t⟩ : TInstant V) :: G).Pairwise fun inst1 inst2 => inst1.t < inst2.t :=
    List.pairwise_cons.mpr ⟨fun a ha => by simpa using (List.mem_filter.mp ha).2, hs.filter _⟩
  have hcheck : tsequenceMakeCheck (⟨va, t⟩ :: G) false seq.period.upperInc seq.linear = .ok () := by
    refine tsequenceMakeCheck_eq_ok.mpr ⟨by simp, chain'_t_iff_pairwise.mpr hsG, ?_, hend⟩
    have := List.length_pos.mpr hne
    simp only [List.length_cons]
    omega
  have hmake : tsequenceMake bt bx (⟨va, t⟩ :: G) false seq.period.upperInc seq.linear false =
      .ok ⟨⟨va, t⟩ :: G, periodOf (⟨va, t⟩ :: G) false seq.period.upperInc, seq.linear,
        bx.make (⟨va, t⟩ :: G) false seq.period.upperInc⟩ :=
    tsequenceMake_eq_ok.mpr ⟨hcheck, by simp⟩
  refine ⟨_, hmake, tsequenceMake_wellFormed hmake, rfl, fun t' ht' => ?_, fun t' => ?_⟩
  · simpa [periodOf] using (containsPeriodTimestamp_iff.mp ht').1
  have hlast : lastT ((⟨va, t⟩ : TInstant V) :: G) = lastT seq.instants := by
    obtain ⟨x, hx⟩ := List.exists_mem_of_ne_nil _ hne
    obtain ⟨hxL, hxt⟩ := List.mem_filter.mp hx
    have hne' := hwf.nonempty
    have hsplit := List.dropLast_append_getLast hne'
    have hlt : x.t ≤ (seq.instants.getLast hne').t := by
      rw [← hsplit] at hxL hs
      rcases List.mem_append.mp hxL with hxL | hxL
      · exact ((List.pairwise_append.mp hs).2.2 x hxL _ (List.mem_singleton_self _)).le
      · rw [List.mem_singleton.mp hxL]
    have hG : G = (seq.instants.dropLast.filter fun inst => t < inst.t) ++
        [seq.instants.getLast hne'] := by
      simp only [G]
      conv_lhs => rw [← hsplit]
      have hlast' : t < (seq.instants.getLast hne').t := (by simpa using hxt : t < x.t).trans_le hlt
      simp [List.filter_append, hlast']
    rw [hG, ← List.cons_append]
    simp only [lastT, List.getLast?_concat, List.getLast?_eq_getLast _ hne']
  have hlower := (bounds_of_containsPeriodTimestamp hc).1
  rw [hwf.period] at hlower
  rw [tsequenceMake_valueAt hmake, TSequence.valueAt]
  by_cases ht' : t < t'
  · rw [if_pos ht', instantsValueAt_cutFront hbt hs ha ht'.le, hwf.period]
    simp only [containsPeriodTimestamp, periodOf, hlast] at hlower ⊢
    simp [ht', show (firstT seq.instants) < t' by omega]
  · rw [if_neg ht']
    simp [containsPeriodTimestamp, periodOf, ht']

end Cut

private lemma filter_eq_take {α : Type} {l : List α} {p : α → Bool} {k : ℕ}
    (h1 : ∀ a ∈ l.take k, p a = true) (h2 : ∀ b ∈ l.drop k, p b = false) :
    l.filter p = l.take k := by
  conv_lhs => rw [← List.take_append_drop k l]
  rw [List.filter_append, List.filter_eq_self.mpr h1,
    List.filter_eq_nil_iff.mpr fun b hb => by simp [h2 b hb], List.append_nil]

private lemma filter_eq_drop {α : Type} {l : List α} {p : α → Bool} {k : ℕ}
    (h1 : ∀ a ∈ l.take k, p a = false) (h2 : ∀ b ∈ l.drop k, p b = true) :
    l.filter p = l.drop k := by
  conv_lhs => rw [← List.take_append_drop k l]
  rw [List.filter_append, List.filter_eq_nil_iff.mpr fun a ha => by simp [h1 a ha],
    List.filter_eq_self.mpr h2, List.nil_append]

/-- The parts of a sequence before and after `t`, each of at most one sequence, make
well-formed sequences in time order denoting the sequence without `t`. -/
private lemma minusTimestamp_parts {bt : BaseType V} {seq : TSequence V B} {t : ℤ}
    (first second : List (TSequence V B)) (hlen1 : first.length ≤ 1)
    (hlen2 : second.length ≤ 1)
    (hfirst : ∀ r ∈ first, r.WellFormed ∧ r.linear = seq.linear ∧
      ∀ t', containsPeriodTimestamp r.period t' = true → t' < t)
    (hsecond : ∀ r ∈ second, r.WellFormed ∧ r.linear = seq.linear ∧
      ∀ t', containsPeriodTimestamp r.period t' = true → t < t')
    (hval1 : ∀ t', sequencesValueAt bt first t' = if t' < t then seq.valueAt bt t' else none)
    (hval2 : ∀ t', sequencesValueAt bt second t' = if t < t' then seq.valueAt bt t' else none) :
    (∀ r ∈ first ++ second, r.WellFormed ∧ r.linear = seq.linear) ∧
      TimeOrdered (first ++ second) ∧
      ∀ t', sequencesValueAt bt (first ++ second) t' =
        if t' = t then none else seq.valueAt bt t' := by
  have hpair : ∀ l : List (TSequence V B), l.length ≤ 1 → TimeOrdered l := fun l hl => by
    match l, hl with
    | [], _ => exact List.Pairwise.nil
    | [_], _ => exact List.pairwise_singleton _ _
  refine ⟨fun r hr => ?_, List.pairwise_append.mpr ⟨hpair _ hlen1, hpair _ hlen2,
    fun r1 h1 r2 h2 t1 t2 ht1 ht2 => ?_⟩, fun t' => ?_⟩
  · rcases List.mem_append.mp hr with hr | hr
    · exact ⟨(hfirst r hr).1, (hfirst r hr).2.1⟩
    · exact ⟨(hsecond r hr).1, (hsecond r hr).2.1⟩
  · exact ((hfirst r1 h1).2.2 t1 ht1).trans ((hsecond r2 h2).2.2 t2 ht2)
  · rw [sequencesValueAt_append, hval1, hval2]
    rcases lt_trichotomy t' t with h | rfl | h
    · simp [h, h.ne, not_lt.mpr h.le]
    · simp
    · simp [h, h.ne', not_lt.mpr h.le]

/-- A part of `tsequence_minus_timestamp1`, built when `P` holds and empty otherwise: at
most one sequence, satisfying `good` and denoting `f`, which is nowhere defined when the
part is empty. The code passes the part on to the continuation `K`. -/
private lemma exists_part (bt : BaseType V) {P : Prop} [Decidable P]
    {mk : Except String (TSequence V B)} {good : TSequence V B → Prop} {f : ℤ → Option V}
    (hpos : P → ∃ r, mk = .ok r ∧ good r ∧ ∀ t', r.valueAt bt t' = f t')
    (hneg : ¬P → ∀ t', f t' = none) :
    ∃ l, (∀ {β : Type} (K : List (TSequence V B) → Except String β),
      (if P then (do let r ← mk; let y ← pure [r]; K y) else (do let y ← pure []; K y)) = K l) ∧
      l.length ≤ 1 ∧ (∀ r ∈ l, good r) ∧ ∀ t', sequencesValueAt bt l t' = f t' := by
  by_cases hP : P
  · obtain ⟨r, hmk, hgood, hval⟩ := hpos hP
    refine ⟨[r], fun K => by rw [if_pos hP, hmk]; rfl, by simp, by simpa using hgood,
      fun t' => ?_⟩
    rw [sequencesValueAt_cons, sequencesValueAt_nil, Option.or_none, hval]
  · exact ⟨[], fun K => by rw [if_neg hP]; rfl, by simp, by simp, fun t' => (hneg hP t').symm⟩

section MinusTimestamp

variable {bt : BaseType V} (bx : BBoxOps V B) {seq : TSequence V B}
  (hbt : seq.linear = true → LawfulBaseType bt) (hwf : seq.WellFormed) {t : ℤ}
  (hc : containsPeriodTimestamp seq.period t = true) {m : ℕ} {x1 x2 : TInstant V}
  (h1 : seq.instants[m]? = some x1) (h2 : seq.instants[m + 1]? = some x2)
  (ht1 : x1.t ≤ t) (ht2 : t ≤ x2.t)
include hbt hwf hc h1 h2 ht1 ht2

/-- The part before `t` that `tsequence_minus_timestamp1` builds from the segment
`x1 -> x2` containing `t`, when some timestamp of the sequence comes before `t`. -/
private lemma minusTimestamp1_before (hA : (m : ℤ) ≠ 0 ∨ firstT seq.instants < t) : ∃ r,
    tsequenceMake bt bx (if x1.t = t then seq.instants.take m ++
        [if seq.linear then x1 else ⟨((seq.instants.take m).getLast?.getD x1).value, t⟩]
      else seq.instants.take m ++ [x1, if seq.linear then tsequenceAtTimestamp1 bt x1 x2 true t
        else ⟨x1.value, t⟩]) seq.period.lowerInc false seq.linear false = .ok r ∧
    (r.WellFormed ∧ r.linear = seq.linear ∧
      ∀ t', containsPeriodTimestamp r.period t' = true → t' < t) ∧
    ∀ t', r.valueAt bt t' = if t' < t then seq.valueAt bt t' else none := by
  have hs := chain'_t_iff_pairwise.mp hwf.increasing
  have hpos := List.length_pos.mpr hwf.nonempty
  have h0 := List.getElem?_eq_getElem hpos
  have hb : instantsValueAt bt seq.linear seq.instants t =
      some (tsequenceValueAtTimestamp1 bt x1 x2 seq.linear t) :=
    instantsValueAt_of_getElem? hs h1 h2 ht1 ht2
  have hne : seq.instants.filter (fun inst => inst.t < t) ≠ [] := by
    refine List.ne_nil_of_mem (List.mem_filter.mpr ⟨List.getElem_mem hpos, ?_⟩)
    rcases hA with hA | hA
    · have := t_lt_of_getElem? hs h0 h1 (by omega)
      simpa using this.trans_le ht1
    · simpa [firstT, List.head?_eq_getElem?, h0] using hA
  by_cases hx : x1.t = t
  · have hF : seq.instants.filter (fun inst => inst.t < t) = seq.instants.take m :=
      filter_eq_take (fun a ha => by simpa [← hx] using t_lt_of_mem_take hs h1 a ha)
        (fun b hb => by simpa [← hx] using t_le_of_mem_drop hs h1 b hb)
    obtain ⟨r, hmk, hwfr, hlin, hin, hval⟩ := tsequenceMake_cutBefore bx hbt hwf hc hne hb
      (w := if seq.linear then x1.value else ((seq.instants.take m).getLast?.getD x1).value)
      (fun hl => by simp [hl, ← hx])
      (fun hl => by
        rw [hF]
        obtain ⟨g, hg⟩ := Option.isSome_iff_exists.mp
          (List.getLast?_isSome.mpr (hF ▸ hne))
        simp [hl, hg])
    refine ⟨r, ?_, ⟨hwfr, hlin, hin⟩, hval⟩
    rw [← hmk, if_pos hx, hF]
    congr 3
    cases seq.linear
    · rfl
    · simp [← hx]
  · have hx' : x1.t < t := lt_of_le_of_ne ht1 hx
    have htake : seq.instants.take (m + 1) = seq.instants.take m ++ [x1] := by
      rw [List.take_succ, h1]
      rfl
    have hF : seq.instants.filter (fun inst => inst.t < t) = seq.instants.take m ++ [x1] := by
      rw [← htake]
      refine filter_eq_take (fun a ha => ?_) (fun b hb => by
        simpa using ht2.trans (t_le_of_mem_drop hs h2 b hb))
      rw [htake] at ha
      rcases List.mem_append.mp ha with ha | ha
      · simpa using (t_lt_of_mem_take hs h1 a ha).trans hx'
      · simpa [List.mem_singleton.mp ha] using hx'
    obtain ⟨r, hmk, hwfr, hlin, hin, hval⟩ := tsequenceMake_cutBefore bx hbt hwf hc hne hb
      (w := if seq.linear then tsequenceValueAtTimestamp1 bt x1 x2 true t else x1.value)
      (fun hl => by simp [hl])
      (fun hl => by simp [hF, hl])
    refine ⟨r, ?_, ⟨hwfr, hlin, hin⟩, hval⟩
    rw [← hmk, if_neg hx, hF, List.append_assoc]
    cases seq.linear <;> rfl

/-- The part after `t` that `tsequence_minus_timestamp1` builds from the segment
`x1 -> x2` containing `t`, when `t` comes before `x2`. -/
private lemma minusTimestamp1_after (hB : t < x2.t) : ∃ r,
    tsequenceMake bt bx (tsequenceAtTimestamp1 bt x1 x2 seq.linear t ::
      seq.instants.drop (m + 1)) false seq.period.upperInc seq.linear false = .ok r ∧
    (r.WellFormed ∧ r.linear = seq.linear ∧
      ∀ t', containsPeriodTimestamp r.period t' = true → t < t') ∧
    ∀ t', r.valueAt bt t' = if t < t' then seq.valueAt bt t' else none := by
  have hs := chain'_t_iff_pairwise.mp hwf.increasing
  have hb : instantsValueAt bt seq.linear seq.instants t =
      some (tsequenceValueAtTimestamp1 bt x1 x2 seq.linear t) :=
    instantsValueAt_of_getElem? hs h1 h2 ht1 ht2
  have htake : seq.instants.take (m + 1) = seq.instants.take m ++ [x1] := by
    rw [List.take_succ, h1]
    rfl
  have hG : seq.instants.filter (fun inst => t < inst.t) = seq.instants.drop (m + 1) := by
    refine filter_eq_drop (fun a ha => ?_) (fun b hb => by
      simpa using hB.trans_le (t_le_of_mem_drop hs h2 b hb))
    rw [htake] at ha
    rcases List.mem_append.mp ha with ha | ha
    · simpa using ((t_lt_of_mem_take hs h1 a ha).trans_le ht1).le
    · simpa [List.mem_singleton.mp ha] using ht1
  have hdrop : seq.instants.drop (m + 1) = x2 :: seq.instants.drop (m + 2) := by
    rw [List.drop_eq_getElem_cons (List.getElem?_eq_some_iff.mp h2).1]
    simp only [List.getElem?_eq_some_iff] at h2
    rw [h2.2]
  have hend : ¬((!seq.linear) = true ∧ (lastTwo? ((⟨tsequenceValueAtTimestamp1 bt x1 x2
      seq.linear t, t⟩ : TInstant V) :: seq.instants.filter (fun inst => t < inst.t))).any
      (fun p => p.1.value ≠ p.2.value) ∧ (!seq.period.upperInc) = true) := by
    have hendL := hwf.endValue
    rw [hG, hdrop]
    cases hlin : seq.linear
    · rw [hlin] at hendL
      by_cases hrest : seq.instants.drop (m + 2) = []
      · have hL : seq.instants = seq.instants.take (m + 1) ++ [x2] := by
          conv_lhs => rw [← List.take_append_drop (m + 1) seq.instants]
          rw [hdrop, hrest]
        rw [hL, lastTwo?_append_singleton, htake, List.getLast?_concat] at hendL
        rw [hrest, tsequenceValueAtTimestamp1_step hB]
        simpa [lastTwo?] using hendL
      · have h2le : 2 ≤ (x2 :: seq.instants.drop (m + 2)).length := by
          have := List.length_pos.mpr hrest
          simp only [List.length_cons]
          omega
        rw [lastTwo?_cons_of_two_le _ h2le, ← hdrop]
        rwa [← List.take_append_drop (m + 1) seq.instants,
          lastTwo?_append_of_two_le _ (hdrop ▸ h2le)] at hendL
    · simp
  obtain ⟨r, hmk, hwfr, hlin, hin, hval⟩ := tsequenceMake_cutAfter bx hbt hwf hc hb
    (by rw [hG, hdrop]; exact List.cons_ne_nil _ _) hend
  refine ⟨r, ?_, ⟨hwfr, hlin, hin⟩, hval⟩
  rw [← hmk, hG]
  rfl

end MinusTimestamp

/-- `tsequence_minus_timestamp1` succeeds on a well-formed sequence, with well-formed
sequences in time order that denote the sequence without the timestamp. -/
theorem tsequenceMinusTimestamp1_spec {bt : BaseType V} (bx : BBoxOps V B) {seq : TSequence V B}
    (hbt : seq.linear = true → LawfulBaseType bt) (hwf : seq.WellFormed) (t : ℤ) :
    ∃ rs, tsequenceMinusTimestamp1 bt bx seq t = .ok rs ∧
      (∀ r ∈ rs, r.WellFormed ∧ r.linear = seq.linear) ∧ TimeOrdered rs ∧
      ∀ t', sequencesValueAt bt rs t' = if t' = t then none else seq.valueAt bt t' := by
  by_cases hc : containsPeriodTimestamp seq.period t = true
  swap
  · refine ⟨[seq], by simp [tsequenceMinusTimestamp1, hc, tsequenceCopy, pure, Except.pure],
      by simp [hwf], List.pairwise_singleton _ _, fun t' => ?_⟩
    rw [sequencesValueAt_cons, sequencesValueAt_nil, Option.or_none]
    split_ifs with ht
    · exact TSequence.valueAt_of_not_contains (by simpa [ht] using hc)
    · rfl
  by_cases hlen : seq.instants.length = 1
  · refine ⟨[], by simp [tsequenceMinusTimestamp1, hc, hlen]; rfl, by simp, List.Pairwise.nil,
      fun t' => ?_⟩
    obtain ⟨inst, -, hper⟩ := hwf.period_of_length_one hlen
    have hb := bounds_of_containsPeriodTimestamp hc
    rw [hper] at hb
    split_ifs with ht
    · rfl
    · refine (TSequence.valueAt_of_not_contains ?_).symm
      cases hc' : containsPeriodTimestamp seq.period t'
      · rfl
      · have hb' := bounds_of_containsPeriodTimestamp hc'
        rw [hper] at hb'
        dsimp only at hb hb'
        omega
  have hs := chain'_t_iff_pairwise.mp hwf.increasing
  have hpos := List.length_pos.mpr hwf.nonempty
  obtain ⟨m, x1, x2, hfind, h1, h2, hm⟩ := tsequenceFindTimestamp_of_contains hwf (by omega) hc
  obtain ⟨ht1, ht2, hend2⟩ := segmentHolds_bounds hm (t_lt_of_getElem? hs h1 h2 (lt_add_one m))
  have hseg : segmentAt seq m = some (x1, x2) := by simp [segmentAt, h1, h2]
  have hper := hwf.period
  have hbounds := bounds_of_containsPeriodTimestamp hc
  rw [hper] at hbounds
  simp only [periodOf] at hbounds
  obtain ⟨first, hfirst, hlen1, hgood1, hval1⟩ := exists_part bt
    (minusTimestamp1_before bx hbt hwf hc h1 h2 ht1 ht2) fun hA t' => by
      split_ifs with ht'
      · exact TSequence.valueAt_of_lt_lower (by rw [hper]; simp only [periodOf]; push_neg at hA; omega)
      · rfl
  obtain ⟨second, hsecond, hlen2, hgood2, hval2⟩ := exists_part bt
    (minusTimestamp1_after bx hbt hwf hc h1 h2 ht1 ht2) fun hB t' => by
      split_ifs with ht'
      · have hx2 : x2.t = t := le_antisymm (not_lt.mp hB) ht2
        have hml : m + 1 = seq.instants.length - 1 := by have := hend2 hx2.symm; omega
        have hlastT : lastT seq.instants = x2.t := by
          simp [lastT, List.getLast?_eq_getElem?, ← hml, h2]
        exact TSequence.valueAt_of_upper_lt (by rw [hper]; simp only [periodOf]; omega)
      · rfl
  refine ⟨first ++ second, ?_, minusTimestamp_parts first second hlen1 hlen2 hgood1 hgood2 hval1
    hval2⟩
  simp only [tsequenceMinusTimestamp1, hc, hlen, hfind, hseg, Bool.not_true, Bool.false_eq_true,
    if_false, Int.toNat_natCast]
  rw [hfirst, hsecond]
  rfl

/-- Removing `{5, 15}` from `[1@10, 2@20]` loses `t = 10`, and removing `{15, 25}`
loses `(15, 20]`. -/
theorem tsequenceMinusTimestampset1_loses_bounds (ε : ℚ) :
    tsequenceMinusTimestampset1 (tfloat ε) (tnumberBBox id)
        ⟨[⟨1, 10⟩, ⟨2, 20⟩], ⟨10, 20, true, true⟩, true, ⟨1, 2, 10, 20⟩⟩
        ⟨[5, 15], by simp, by simp⟩ =
      .ok [⟨[⟨1, 10⟩, ⟨3 / 2, 15⟩], ⟨10, 15, false, false⟩, true, ⟨1, 3 / 2, 10, 15⟩⟩,
        ⟨[⟨3 / 2, 15⟩, ⟨2, 20⟩], ⟨15, 20, false, true⟩, true, ⟨3 / 2, 2, 15, 20⟩⟩] ∧
    tsequenceMinusTimestampset1 (tfloat ε) (tnumberBBox id)
        ⟨[⟨1, 10⟩, ⟨2, 20⟩], ⟨10, 20, true, true⟩, true, ⟨1, 2, 10, 20⟩⟩
        ⟨[15, 25], by simp, by simp⟩ =
      .ok [⟨[⟨1, 10⟩, ⟨3 / 2, 15⟩], ⟨10, 15, true, false⟩, true, ⟨1, 3 / 2, 10, 15⟩⟩] := by
  constructor <;>
  · simp [tsequenceMinusTimestampset1, timestampsetBbox, overlapsPeriodPeriod,
      tsequenceMinusTimestampsetLoop, tsequenceMake, tsequenceMakeCheck, ensureValidTinstantarr,
      tsequenceAtTimestamp1, tsequenceValueAtTimestamp1, tfloat, periodOf, lastTwo?, tnumberBBox,
      tboxExpand]
    norm_num
    rfl

end TemporalSequence
