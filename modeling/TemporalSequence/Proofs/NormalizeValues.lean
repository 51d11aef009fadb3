import TemporalSequence.Proofs.Normalize
import TemporalSequence.Semantics

/-!
# How far normalization moves the values of a sequence

`tinstantarr_normalize` drops an instant of a linear array when it lies within
`EPSILON` of the line from the last kept instant to the next input instant: for
floats by `float_collinear`, for geometric points on each coordinate by
`geompoint_collinear`. Dropping it moves each such coordinate by at most that
distance, and only on the two segments around it. The next test is made against a new
line, from the same kept instant, so the moves add up: the sequence `tsequence_make`
builds with normalization stays within `EPSILON` times the number of dropped instants
of the one it builds without, and no closer in general. The bound is proved once for
a coordinate of a lawful base type (`CoordinateOf`) and instantiated for floats and
for the coordinates of points.
-/

namespace TemporalSequence

/-! ## Optional values within a bound -/

/-- Two optional values are both absent, or both present and at most `bound` apart. -/
def ValuesWithin (bound : ℚ) (o1 o2 : Option ℚ) : Prop :=
  Option.Rel (fun x y => |x - y| ≤ bound) o1 o2

namespace ValuesWithin

lemma refl {bound : ℚ} (h : 0 ≤ bound) (o : Option ℚ) : ValuesWithin bound o o := by
  cases o
  · exact .none
  · exact .some (by simpa using h)

lemma trans {b1 b2 : ℚ} {o1 o2 o3 : Option ℚ} (h1 : ValuesWithin b1 o1 o2)
    (h2 : ValuesWithin b2 o2 o3) : ValuesWithin (b1 + b2) o1 o3 := by
  cases h1 with
  | none => cases h2; exact .none
  | some h1 =>
    cases h2 with
    | some h2 => exact .some ((abs_sub_le _ _ _).trans (add_le_add h1 h2))

lemma mono {b1 b2 : ℚ} {o1 o2 : Option ℚ} (h : ValuesWithin b1 o1 o2) (hb : b1 ≤ b2) :
    ValuesWithin b2 o1 o2 := by
  cases h with
  | none => exact .none
  | some h => exact .some (h.trans hb)

end ValuesWithin

/-! ## Coordinates -/

variable {V : Type} [DecidableEq V]

/-- A coordinate `π` of the values of a base type along which interpolation is affine
and the collinearity test tolerates at most `ε`. -/
structure CoordinateOf (bt : BaseType V) (ε : ℚ) (π : V → ℚ) : Prop where
  interpolate : ∀ v1 v2 r, π (bt.interpolate v1 v2 r) = π v1 + (π v2 - π v1) * r
  collinear : ∀ v1 v2 v3 r, bt.collinear v1 v2 v3 r = true →
    |π v2 - (π v1 + (π v3 - π v1) * r)| ≤ ε

theorem tfloat_coordinate (ε : ℚ) : CoordinateOf (tfloat ε) ε id :=
  ⟨fun _ _ _ => rfl, fun _ _ _ _ h => by simpa [tfloat, floatCollinear] using h⟩

theorem tgeompoint_coordinateX (ε : ℚ) (hasz : Bool) (locatePoint : Point → Point → Point → ℚ × ℚ) :
    CoordinateOf (tgeompoint ε hasz locatePoint) ε Point.x :=
  ⟨fun _ _ _ => rfl, fun _ _ _ _ h => by
    cases hasz <;> simp_all [tgeompoint, geompointCollinear, pointClose, interpolatePoint]⟩

theorem tgeompoint_coordinateY (ε : ℚ) (hasz : Bool) (locatePoint : Point → Point → Point → ℚ × ℚ) :
    CoordinateOf (tgeompoint ε hasz locatePoint) ε Point.y :=
  ⟨fun _ _ _ => rfl, fun _ _ _ _ h => by
    cases hasz <;> simp_all [tgeompoint, geompointCollinear, pointClose, interpolatePoint]⟩

theorem tgeompoint_coordinateZ (ε : ℚ) (locatePoint : Point → Point → Point → ℚ × ℚ) :
    CoordinateOf (tgeompoint ε true locatePoint) ε Point.z :=
  ⟨fun _ _ _ => rfl, fun _ _ _ _ h => by
    simp_all [tgeompoint, geompointCollinear, pointClose, interpolatePoint]⟩

/-! ## Lines through two instants -/

/-- The coordinate `π` at `t` of the line through `inst1` and `inst2`, with the fraction
of the duration computed as the collinearity test receives it. -/
def lineAt (π : V → ℚ) (inst1 inst2 : TInstant V) (t : ℤ) : ℚ :=
  π inst1.value + (π inst2.value - π inst1.value) *
    (((t - inst1.t : ℤ) : ℚ) / ((inst2.t - inst1.t : ℤ) : ℚ))

section Coordinate

variable {bt : BaseType V} {ε : ℚ} {π : V → ℚ} (hlaw : LawfulBaseType bt)
  (hπ : CoordinateOf bt ε π)

include hlaw hπ in
lemma tsequenceValueAtTimestamp1_coordinate {inst1 inst2 : TInstant V} {t : ℤ}
    (h1 : inst1.t ≤ t) (h2 : t ≤ inst2.t) :
    π (tsequenceValueAtTimestamp1 bt inst1 inst2 true t) = lineAt π inst1 inst2 t := by
  by_cases hv : inst1.value = inst2.value
  · rw [tsequenceValueAtTimestamp1_const hv]
    simp [lineAt, hv]
  · rw [tsequenceValueAtTimestamp1_eq_interpolate hlaw hv h1 h2, hπ.interpolate, lineAt]

omit [DecidableEq V] in
lemma lineAt_sub_lineAt_left {K c n : TInstant V} (hKc : K.t < c.t) (hKn : K.t < n.t) (t : ℤ) :
    lineAt π K c t - lineAt π K n t =
      ((t - K.t : ℤ) : ℚ) / ((c.t - K.t : ℤ) : ℚ) * (π c.value - lineAt π K n c.t) := by
  have h1 : (c.t : ℚ) - K.t ≠ 0 := sub_ne_zero.mpr (by exact_mod_cast hKc.ne')
  have h2 : (n.t : ℚ) - K.t ≠ 0 := sub_ne_zero.mpr (by exact_mod_cast hKn.ne')
  unfold lineAt
  push_cast
  field_simp
  ring

omit [DecidableEq V] in
lemma lineAt_sub_lineAt_right {K c n : TInstant V} (hcn : c.t < n.t) (hKn : K.t < n.t) (t : ℤ) :
    lineAt π c n t - lineAt π K n t =
      (1 - ((t - c.t : ℤ) : ℚ) / ((n.t - c.t : ℤ) : ℚ)) * (π c.value - lineAt π K n c.t) := by
  have h1 : (n.t : ℚ) - c.t ≠ 0 := sub_ne_zero.mpr (by exact_mod_cast hcn.ne')
  have h2 : (n.t : ℚ) - K.t ≠ 0 := sub_ne_zero.mpr (by exact_mod_cast hKn.ne')
  unfold lineAt
  push_cast
  field_simp
  ring

lemma fraction_mem {a b t : ℤ} (hat : a ≤ t) (htb : t ≤ b) (hab : a < b) :
    0 ≤ ((t - a : ℤ) : ℚ) / ((b - a : ℤ) : ℚ) ∧ ((t - a : ℤ) : ℚ) / ((b - a : ℤ) : ℚ) ≤ 1 := by
  have hd : (0 : ℚ) < ((b - a : ℤ) : ℚ) := by exact_mod_cast sub_pos.mpr hab
  exact ⟨div_nonneg (by exact_mod_cast sub_nonneg.mpr hat) hd.le,
    (div_le_one hd).mpr (by exact_mod_cast sub_le_sub_right htb a)⟩

lemma abs_mul_le_of_mem {r δ e : ℚ} (hr : 0 ≤ r ∧ r ≤ 1) (hδ : |δ| ≤ e) : |r * δ| ≤ e := by
  rw [abs_mul, abs_of_nonneg hr.1]
  exact (mul_le_of_le_one_left (abs_nonneg δ) hr.2).trans hδ

/-! ## Dropping one instant -/

variable {e : ℚ} {K c n : TInstant V} {rest : List (TInstant V)}

include hπ in
lemma abs_sub_lineAt_le_of_normalizeRedundant (hε : 0 ≤ ε)
    (h : normalizeRedundant bt true K c n = true) : |π c.value - lineAt π K n c.t| ≤ ε := by
  simp only [normalizeRedundant, datumCollinear, Bool.not_true, Bool.false_and, Bool.true_and,
    Bool.false_or, Bool.or_eq_true, Bool.and_eq_true, beq_iff_eq] at h
  rcases h with ⟨h1, h2⟩ | h
  · simpa [lineAt, ← h1, ← h2] using hε
  · exact hπ.collinear _ _ _ _ h

include hlaw hπ in
/-- Dropping the instant `c` moves the coordinate of the values of the array by at most
the distance from `c` to the line from `K` to `n`. -/
lemma instantsValueAt_drop_within (hs : (K :: c :: n :: rest).Pairwise (·.t < ·.t))
    (hδ : |π c.value - lineAt π K n c.t| ≤ e) (t : ℤ) :
    ValuesWithin e ((instantsValueAt bt true (K :: n :: rest) t).map π)
      ((instantsValueAt bt true (K :: c :: n :: rest) t).map π) := by
  have hKc : K.t < c.t := List.rel_of_pairwise_cons hs (by simp)
  have hKn : K.t < n.t := List.rel_of_pairwise_cons hs (by simp)
  have hcn : c.t < n.t := List.rel_of_pairwise_cons hs.of_cons (by simp)
  have he : 0 ≤ e := (abs_nonneg _).trans hδ
  rw [instantsValueAt_cons_cons, instantsValueAt_cons_cons, instantsValueAt_cons_cons]
  by_cases htn : t < n.t
  · by_cases htc : t < c.t
    · -- on the segment from `K` to `c`, or before the array
      simp only [htn, htc, if_true]
      split_ifs with hKt
      · refine .some ?_
        rw [tsequenceValueAtTimestamp1_coordinate hlaw hπ hKt htn.le,
          tsequenceValueAtTimestamp1_coordinate hlaw hπ hKt htc.le, abs_sub_comm,
          lineAt_sub_lineAt_left hKc hKn]
        exact abs_mul_le_of_mem (fraction_mem hKt htc.le hKc) hδ
      · exact .none
    · -- on the segment from `c` to `n`
      have hct : c.t ≤ t := not_lt.mp htc
      simp only [htn, htc, hct, show K.t ≤ t by omega, if_true, if_false]
      refine .some ?_
      rw [tsequenceValueAtTimestamp1_coordinate hlaw hπ (by omega) htn.le,
        tsequenceValueAtTimestamp1_coordinate hlaw hπ hct htn.le, abs_sub_comm,
        lineAt_sub_lineAt_right hcn hKn]
      have hr := fraction_mem hct htn.le hcn
      exact abs_mul_le_of_mem ⟨by linarith [hr.2], by linarith [hr.1]⟩ hδ
  · -- from `n` on the two arrays agree
    simp only [htn, if_false, show ¬t < c.t by omega]
    exact ValuesWithin.refl he _

/-! ## The normalization pass -/

include hlaw hπ in
/-- The loop moves the coordinate of the values of the array by at most `ε` per
instant it drops. -/
lemma tinstantarrNormalizeLoop_within (hε : 0 ≤ ε) :
    ∀ {K c : TInstant V} {rest : List (TInstant V)}, (K :: c :: rest).Pairwise (·.t < ·.t) →
      ∀ t, ValuesWithin
        ((((c :: rest).length - (tinstantarrNormalizeLoop bt true K c rest).length : ℕ) : ℚ) * ε)
        ((instantsValueAt bt true (K :: tinstantarrNormalizeLoop bt true K c rest) t).map π)
        ((instantsValueAt bt true (K :: c :: rest) t).map π)
  | K, c, [], _, t => by simpa using ValuesWithin.refl le_rfl _
  | K, c, n :: rest, hs, t => by
    rw [tinstantarrNormalizeLoop_cons]
    split_ifs with hred
    · -- `c` is dropped: the loop goes on from `K` and `n`
      have hle := (tinstantarrNormalizeLoop_sublist bt true K n rest).length_le
      have hs' : (K :: n :: rest).Pairwise (·.t < ·.t) :=
        hs.sublist ((List.sublist_cons_self _ _).cons_cons _)
      refine ((tinstantarrNormalizeLoop_within hε hs' t).trans
        (instantsValueAt_drop_within hlaw hπ hs
          (abs_sub_lineAt_le_of_normalizeRedundant hπ hε hred) t)).mono (le_of_eq ?_)
      simp only [List.length_cons] at hle ⊢
      rw [Nat.cast_sub hle, Nat.cast_sub (by omega)]
      push_cast
      ring
    · -- `c` is kept: the arrays agree up to `c`, and the loop goes on from `c`
      have hrest := tinstantarrNormalizeLoop_within hε hs.of_cons t
      rw [instantsValueAt_cons_cons, instantsValueAt_cons_cons]
      simp only [List.length_cons, Nat.add_sub_add_right] at hrest ⊢
      split_ifs
      · exact ValuesWithin.refl (mul_nonneg (Nat.cast_nonneg _) hε) _
      · exact ValuesWithin.refl (mul_nonneg (Nat.cast_nonneg _) hε) _
      · exact hrest

include hlaw hπ in
lemma tinstantarrNormalize_within (hε : 0 ≤ ε) {instants : List (TInstant V)}
    (hs : instants.Pairwise (·.t < ·.t)) (t : ℤ) :
    ValuesWithin (((instants.length - (tinstantarrNormalize bt instants true).length : ℕ) : ℚ) * ε)
      ((instantsValueAt bt true (tinstantarrNormalize bt instants true) t).map π)
      ((instantsValueAt bt true instants t).map π) := by
  match instants, hs with
  | [], _ | [_], _ => exact ValuesWithin.refl (mul_nonneg (Nat.cast_nonneg _) hε) _
  | K :: c :: rest, hs =>
    simpa [tinstantarrNormalize] using tinstantarrNormalizeLoop_within hlaw hπ hε hs t

end Coordinate

lemma tsequenceValueAtTimestamp1_tfloat (ε : ℚ) {inst1 inst2 : TInstant ℚ} {t : ℤ}
    (h1 : inst1.t ≤ t) (h2 : t ≤ inst2.t) :
    tsequenceValueAtTimestamp1 (tfloat ε) inst1 inst2 true t = lineAt id inst1 inst2 t :=
  tsequenceValueAtTimestamp1_coordinate (tfloat_lawful ε) (tfloat_coordinate ε) h1 h2

lemma getLast?_tinstantarrNormalizeLoop (bt : BaseType V) (linear : Bool) :
    ∀ (inst1 inst2 : TInstant V) (rest : List (TInstant V)),
      (tinstantarrNormalizeLoop bt linear inst1 inst2 rest).getLast? = (inst2 :: rest).getLast?
  | _, _, [] => rfl
  | inst1, inst2, inst3 :: rest => by
    rw [tinstantarrNormalizeLoop_cons, List.getLast?_cons_cons]
    split_ifs
    · exact getLast?_tinstantarrNormalizeLoop bt linear inst1 inst3 rest
    · obtain ⟨x, out, hout⟩ :=
        List.exists_cons_of_ne_nil (tinstantarrNormalizeLoop_ne_nil bt linear inst2 inst3 rest)
      rw [hout, List.getLast?_cons_cons, ← hout, getLast?_tinstantarrNormalizeLoop]

lemma periodOf_tinstantarrNormalize (bt : BaseType V)
    (instants : List (TInstant V)) (linear lowerInc upperInc : Bool) :
    periodOf (tinstantarrNormalize bt instants linear) lowerInc upperInc =
      periodOf instants lowerInc upperInc := by
  match instants with
  | [] | [_] => rfl
  | inst1 :: inst2 :: rest =>
    obtain ⟨x, out, hout⟩ :=
      List.exists_cons_of_ne_nil (tinstantarrNormalizeLoop_ne_nil bt linear inst1 inst2 rest)
    have hlast := getLast?_tinstantarrNormalizeLoop bt linear inst1 inst2 rest
    rw [hout] at hlast
    simp only [periodOf, tinstantarrNormalize, hout, firstT_cons, lastT, List.getLast?_cons_cons,
      hlast]

/-- For a lawful base type and increasing timestamps, the sequence `tsequence_make`
builds with normalization has the period of the one it builds without, and at each of
its timestamps, on every coordinate the collinearity test tolerates by `ε`, a value
within `ε` times the number of dropped instants. -/
theorem tsequenceMake_normalize_coordinates {bt : BaseType V} {ε : ℚ} (hlaw : LawfulBaseType bt)
    (hε : 0 ≤ ε) {B : Type} (bx : BBoxOps V B) {instants : List (TInstant V)}
    {lowerInc upperInc : Bool} {seq : TSequence V B}
    (h : tsequenceMake bt bx instants lowerInc upperInc true false = .ok seq) :
    ∃ seqN, tsequenceMake bt bx instants lowerInc upperInc true true = .ok seqN ∧
      seqN.period = seq.period ∧ ∀ π, CoordinateOf bt ε π → ∀ t,
        ValuesWithin (((seq.instants.length - seqN.instants.length : ℕ) : ℚ) * ε)
          ((seqN.valueAt bt t).map π) ((seq.valueAt bt t).map π) := by
  obtain ⟨hcheck, rfl⟩ := tsequenceMake_eq_ok.mp h
  have hs := chain'_t_iff_pairwise.mp (tsequenceMakeCheck_eq_ok.mp hcheck).2.1
  have hper := periodOf_tinstantarrNormalize bt instants true lowerInc upperInc
  refine ⟨_, tsequenceMake_eq_ok.mpr ⟨hcheck, rfl⟩, ?_, fun π hπ t => ?_⟩ <;>
    simp only [true_and, Bool.false_eq_true, false_and, if_false, tinstantarrNormalize_eq_ite]
  · exact hper
  · unfold TSequence.valueAt
    rw [hper]
    split_ifs
    · exact tinstantarrNormalize_within hlaw hπ hε hs t
    · exact .none

/-- For linear floats, and for linear geometric points on each coordinate that
`geompoint_collinear` compares, with increasing timestamps, the sequence
`tsequence_make` builds with normalization has the period of the one it builds without,
and at each of its timestamps a value within `ε` times the number of dropped
instants. -/
theorem tsequence_make_normalize_within (ε : ℚ) (hε : 0 ≤ ε) :
    (∀ {B : Type} (bx : BBoxOps ℚ B) {instants : List (TInstant ℚ)} {lowerInc upperInc : Bool}
      {seq : TSequence ℚ B},
      tsequenceMake (tfloat ε) bx instants lowerInc upperInc true false = .ok seq →
      ∃ seqN, tsequenceMake (tfloat ε) bx instants lowerInc upperInc true true = .ok seqN ∧
        seqN.period = seq.period ∧
        ∀ t, ValuesWithin (((seq.instants.length - seqN.instants.length : ℕ) : ℚ) * ε)
          (seqN.valueAt (tfloat ε) t) (seq.valueAt (tfloat ε) t)) ∧
    (∀ (hasz : Bool) (locatePoint : Point → Point → Point → ℚ × ℚ) {B : Type}
      (bx : BBoxOps Point B) {instants : List (TInstant Point)} {lowerInc upperInc : Bool}
      {seq : TSequence Point B},
      tsequenceMake (tgeompoint ε hasz locatePoint) bx instants lowerInc upperInc true false =
        .ok seq →
      ∃ seqN, tsequenceMake (tgeompoint ε hasz locatePoint) bx instants lowerInc upperInc true
          true = .ok seqN ∧
        seqN.period = seq.period ∧
        ∀ t, ValuesWithin (((seq.instants.length - seqN.instants.length : ℕ) : ℚ) * ε)
            ((seqN.valueAt (tgeompoint ε hasz locatePoint) t).map Point.x)
            ((seq.valueAt (tgeompoint ε hasz locatePoint) t).map Point.x) ∧
          ValuesWithin (((seq.instants.length - seqN.instants.length : ℕ) : ℚ) * ε)
            ((seqN.valueAt (tgeompoint ε hasz locatePoint) t).map Point.y)
            ((seq.valueAt (tgeompoint ε hasz locatePoint) t).map Point.y) ∧
          (hasz = true → ValuesWithin (((seq.instants.length - seqN.instants.length : ℕ) : ℚ) * ε)
            ((seqN.valueAt (tgeompoint ε hasz locatePoint) t).map Point.z)
            ((seq.valueAt (tgeompoint ε hasz locatePoint) t).map Point.z))) := by
  constructor
  · intro B bx instants lowerInc upperInc seq h
    obtain ⟨seqN, hN, hper, hval⟩ := tsequenceMake_normalize_coordinates (tfloat_lawful ε) hε bx h
    exact ⟨seqN, hN, hper, fun t => by simpa using hval id (tfloat_coordinate ε) t⟩
  · intro hasz locatePoint B bx instants lowerInc upperInc seq h
    obtain ⟨seqN, hN, hper, hval⟩ :=
      tsequenceMake_normalize_coordinates (tgeompoint_lawful ε hasz locatePoint) hε bx h
    refine ⟨seqN, hN, hper, fun t => ⟨hval _ (tgeompoint_coordinateX ε hasz locatePoint) t,
      hval _ (tgeompoint_coordinateY ε hasz locatePoint) t, fun hz => ?_⟩⟩
    subst hz
    exact hval _ (tgeompoint_coordinateZ ε locatePoint) t

/-- At the tolerance `1e-5` of the code, normalization drops `1.5e-5@1` and `1e-5@2`
from `0@0, 1.5e-5@1, 1e-5@2, 0@3`, each within `1e-5` of the line it is tested
against, and the value at timestamp 1 moves by `1.5e-5`. -/
theorem tsequence_make_normalize_drift :
    ∃ seqN seq, tsequenceMake (tfloat (1 / 100000)) (tnumberBBox id)
        [⟨0, 0⟩, ⟨3 / 200000, 1⟩, ⟨1 / 100000, 2⟩, ⟨0, 3⟩] true true true true = .ok seqN ∧
      tsequenceMake (tfloat (1 / 100000)) (tnumberBBox id)
        [⟨0, 0⟩, ⟨3 / 200000, 1⟩, ⟨1 / 100000, 2⟩, ⟨0, 3⟩] true true true false = .ok seq ∧
      seqN.instants = [⟨0, 0⟩, ⟨0, 3⟩] ∧
      seqN.valueAt (tfloat (1 / 100000)) 1 = some 0 ∧
      seq.valueAt (tfloat (1 / 100000)) 1 = some (3 / 200000) ∧ (1 / 100000 : ℚ) < |3 / 200000 - 0| := by
  have hnorm : tinstantarrNormalize (tfloat (1 / 100000))
      [⟨0, 0⟩, ⟨3 / 200000, 1⟩, ⟨1 / 100000, 2⟩, ⟨0, 3⟩] true = [⟨0, 0⟩, ⟨0, 3⟩] := by
    simp [tinstantarrNormalize, tinstantarrNormalizeLoop, normalizeRedundant, datumCollinear,
      tfloat, floatCollinear]
    norm_num [abs_le]
  have hcheck : tsequenceMakeCheck ([⟨0, 0⟩, ⟨3 / 200000, 1⟩, ⟨1 / 100000, 2⟩, ⟨0, 3⟩] :
      List (TInstant ℚ)) true true true = .ok () :=
    tsequenceMakeCheck_eq_ok.mpr ⟨by simp, by simp, by simp, by simp⟩
  have hlen : true = true ∧ 1 < ([⟨0, 0⟩, ⟨3 / 200000, 1⟩, ⟨1 / 100000, 2⟩, ⟨0, 3⟩] :
      List (TInstant ℚ)).length := ⟨rfl, by decide⟩
  refine ⟨_, _, tsequenceMake_eq_ok.mpr ⟨hcheck, rfl⟩, tsequenceMake_eq_ok.mpr ⟨hcheck, rfl⟩,
    ?_, ?_, ?_, by rw [sub_zero, abs_of_pos (by norm_num)]; norm_num⟩ <;>
    simp only [hlen, if_true, hnorm]
  all_goals simp [TSequence.valueAt, containsPeriodTimestamp, periodOf, lastT, instantsValueAt,
    tsequenceValueAtTimestamp1]

/-- At the tolerance `1e-5` of the code, normalizing `0@0, 1.5e-5@1, 1e-5@2, 0@3` keeps
the period and moves the values by at most `1e-5` per dropped instant. -/
theorem tsequence_make_normalize_within_drift :
    (0 : ℚ) ≤ 1 / 100000 ∧
    tsequenceMake (tfloat (1 / 100000)) (tnumberBBox id)
        [⟨0, 0⟩, ⟨3 / 200000, 1⟩, ⟨1 / 100000, 2⟩, ⟨0, 3⟩] true true true false =
      .ok ⟨[⟨0, 0⟩, ⟨3 / 200000, 1⟩, ⟨1 / 100000, 2⟩, ⟨0, 3⟩],
        periodOf [⟨0, 0⟩, ⟨3 / 200000, 1⟩, ⟨1 / 100000, 2⟩, ⟨0, 3⟩] true true, true,
        (tnumberBBox id).make [⟨0, 0⟩, ⟨3 / 200000, 1⟩, ⟨1 / 100000, 2⟩, ⟨0, 3⟩] true true⟩ ∧
    ∃ seqN, tsequenceMake (tfloat (1 / 100000)) (tnumberBBox id)
        [⟨0, 0⟩, ⟨3 / 200000, 1⟩, ⟨1 / 100000, 2⟩, ⟨0, 3⟩] true true true true = .ok seqN ∧
      seqN.period = periodOf [⟨0, 0⟩, ⟨3 / 200000, 1⟩, ⟨1 / 100000, 2⟩, ⟨0, 3⟩] true true ∧
      ∀ t, ValuesWithin (((4 - seqN.instants.length : ℕ) : ℚ) * (1 / 100000))
        (seqN.valueAt (tfloat (1 / 100000)) t)
        (TSequence.valueAt (tfloat (1 / 100000))
          (⟨[⟨0, 0⟩, ⟨3 / 200000, 1⟩, ⟨1 / 100000, 2⟩, ⟨0, 3⟩],
            periodOf [⟨0, 0⟩, ⟨3 / 200000, 1⟩, ⟨1 / 100000, 2⟩, ⟨0, 3⟩] true true, true,
            (tnumberBBox id).make [⟨0, 0⟩, ⟨3 / 200000, 1⟩, ⟨1 / 100000, 2⟩, ⟨0, 3⟩] true true⟩ :
            TSequence ℚ TBox) t) := by
  have hcheck : tsequenceMakeCheck ([⟨0, 0⟩, ⟨3 / 200000, 1⟩, ⟨1 / 100000, 2⟩, ⟨0, 3⟩] :
      List (TInstant ℚ)) true true true = .ok () :=
    tsequenceMakeCheck_eq_ok.mpr ⟨by simp, by simp, by simp, by simp⟩
  have hmake : tsequenceMake (tfloat (1 / 100000)) (tnumberBBox id)
      [⟨0, 0⟩, ⟨3 / 200000, 1⟩, ⟨1 / 100000, 2⟩, ⟨0, 3⟩] true true true false =
    .ok ⟨[⟨0, 0⟩, ⟨3 / 200000, 1⟩, ⟨1 / 100000, 2⟩, ⟨0, 3⟩],
      periodOf [⟨0, 0⟩, ⟨3 / 200000, 1⟩, ⟨1 / 100000, 2⟩, ⟨0, 3⟩] true true, true,
      (tnumberBBox id).make [⟨0, 0⟩, ⟨3 / 200000, 1⟩, ⟨1 / 100000, 2⟩, ⟨0, 3⟩] true true⟩ :=
    tsequenceMake_eq_ok.mpr ⟨hcheck, rfl⟩
  exact ⟨by norm_num, hmake, (tsequence_make_normalize_within _ (by norm_num)).1 _ hmake⟩

end TemporalSequence
