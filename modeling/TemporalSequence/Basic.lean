import Mathlib.Data.Rat.Floor
import Mathlib.Data.List.Chain

/-!
# Instants, periods and sequences

The value types of `tsequence.c`. A timestamp (`TimestampTz`) is an integer count
of microseconds and a `double` is read as an exact rational, so the tolerance
`EPSILON` of the segment math is a rational parameter of every function that uses
it. The period primitives live in `period.c`, outside this file; they are
modelled here from their specification as operations on intervals of timestamps.
-/

namespace TemporalSequence

/-- A temporal instant `TInstant`: a base value at a timestamp. -/
structure TInstant (V : Type) where
  value : V
  t : ℤ
deriving DecidableEq, Repr

/-- A period `(lower, upper, lower_inc, upper_inc)` of timestamps. -/
structure Period where
  lower : ℤ
  upper : ℤ
  lowerInc : Bool
  upperInc : Bool
deriving DecidableEq, Repr

/-- The C cast `(long) x` of a double: truncation towards zero. -/
def longOfDouble (x : ℚ) : ℤ := x.num.tdiv x.den

lemma longOfDouble_of_nonneg {x : ℚ} (hx : 0 ≤ x) : longOfDouble x = ⌊x⌋ := by
  rw [longOfDouble, Rat.floor_def, Int.tdiv_eq_ediv (Rat.num_nonneg.mpr hx) (Int.natCast_nonneg _)]

/-- Modelled from the spec: `contains_period_timestamp_internal`, membership of a
timestamp in a period with its bound inclusivity. -/
def containsPeriodTimestamp (p : Period) (t : ℤ) : Bool :=
  (p.lower < t || (p.lowerInc && p.lower == t)) && (t < p.upper || (p.upperInc && t == p.upper))

lemma containsPeriodTimestamp_iff {p : Period} {t : ℤ} :
    containsPeriodTimestamp p t = true ↔
      (p.lower < t ∨ p.lowerInc = true ∧ p.lower = t) ∧
        (t < p.upper ∨ p.upperInc = true ∧ t = p.upper) := by
  simp only [containsPeriodTimestamp, Bool.and_eq_true, Bool.or_eq_true, decide_eq_true_eq,
    beq_iff_eq]

lemma bounds_of_containsPeriodTimestamp {p : Period} {t : ℤ}
    (h : containsPeriodTimestamp p t = true) : p.lower ≤ t ∧ t ≤ p.upper := by
  rw [containsPeriodTimestamp_iff] at h
  omega

/-- Modelled from the spec: `overlaps_period_period_internal`, whether two periods
share a timestamp. -/
def overlapsPeriodPeriod (p1 p2 : Period) : Bool :=
  (p1.lower < p2.upper || (p1.lower == p2.upper && p1.lowerInc && p2.upperInc)) &&
    (p2.lower < p1.upper || (p2.lower == p1.upper && p2.lowerInc && p1.upperInc))

/-- Modelled from the spec: `intersection_period_period_internal`, the common
period of two periods, `none` when they do not overlap. -/
def intersectionPeriodPeriod (p1 p2 : Period) : Option Period :=
  if overlapsPeriodPeriod p1 p2 then
    let lower := max p1.lower p2.lower
    let upper := min p1.upper p2.upper
    let lowerInc := if p1.lower = p2.lower then p1.lowerInc && p2.lowerInc
      else if lower = p1.lower then p1.lowerInc else p2.lowerInc
    let upperInc := if p1.upper = p2.upper then p1.upperInc && p2.upperInc
      else if upper = p1.upper then p1.upperInc else p2.upperInc
    some ⟨lower, upper, lowerInc, upperInc⟩
  else none

/-- A temporal sequence `TSequence`: its instants, its period, its interpolation
flag and its cached bounding box of type `B`. The count of the C structure is the
length of `instants`. -/
structure TSequence (V B : Type) where
  instants : List (TInstant V)
  period : Period
  linear : Bool
  bbox : B
deriving DecidableEq, Repr

/-- The timestamp of the first instant of an array. -/
def firstT {V : Type} (instants : List (TInstant V)) : ℤ :=
  (instants.head?.map TInstant.t).getD 0

/-- The timestamp of the last instant of an array. -/
def lastT {V : Type} (instants : List (TInstant V)) : ℤ :=
  (instants.getLast?.map TInstant.t).getD 0

@[simp] lemma firstT_cons {V : Type} (i : TInstant V) (rest : List (TInstant V)) :
    firstT (i :: rest) = i.t := rfl

@[simp] lemma lastT_singleton {V : Type} (i : TInstant V) : lastT [i] = i.t := rfl

@[simp] lemma lastT_cons_cons {V : Type} (i j : TInstant V) (rest : List (TInstant V)) :
    lastT (i :: j :: rest) = lastT (j :: rest) := by
  simp [lastT, List.getLast?_cons_cons]

lemma lastT_drop {V : Type} {instants : List (TInstant V)} {m : ℕ} (h : m < instants.length) :
    lastT (instants.drop m) = lastT instants := by
  obtain ⟨x, hx⟩ := Option.isSome_iff_exists.mp
    (List.getLast?_isSome.mpr (by simpa using h : instants.drop m ≠ []))
  conv_rhs => rw [← List.take_append_drop m instants]
  simp only [lastT, List.getLast?_append, hx, Option.or_some]

/-- `period_set` over the first and last timestamps of an instant array. -/
def periodOf {V : Type} (instants : List (TInstant V)) (lowerInc upperInc : Bool) : Period :=
  ⟨firstT instants, lastT instants, lowerInc, upperInc⟩

@[simp] lemma periodOf_lowerInc {V : Type} (instants : List (TInstant V)) (lowerInc upperInc : Bool) :
    (periodOf instants lowerInc upperInc).lowerInc = lowerInc := rfl

@[simp] lemma periodOf_upperInc {V : Type} (instants : List (TInstant V)) (lowerInc upperInc : Bool) :
    (periodOf instants lowerInc upperInc).upperInc = upperInc := rfl

lemma chain'_t_iff_pairwise {V : Type} {instants : List (TInstant V)} :
    instants.Chain' (fun inst1 inst2 => inst1.t < inst2.t) ↔
      instants.Pairwise (fun inst1 inst2 => inst1.t < inst2.t) :=
  (List.chain'_map TInstant.t).symm.trans (List.chain'_iff_pairwise.trans List.pairwise_map)

section Sorted

variable {V : Type} {instants : List (TInstant V)}
  (hs : instants.Pairwise fun inst1 inst2 => inst1.t < inst2.t)
include hs

lemma t_lt_of_getElem? {i j : ℕ} {x y : TInstant V} (hi : instants[i]? = some x)
    (hj : instants[j]? = some y) (hij : i < j) : x.t < y.t := by
  obtain ⟨hi', rfl⟩ := List.getElem?_eq_some_iff.mp hi
  obtain ⟨hj', rfl⟩ := List.getElem?_eq_some_iff.mp hj
  exact List.pairwise_iff_getElem.mp hs i j hi' hj' hij

lemma t_le_of_getElem? {i j : ℕ} {x y : TInstant V} (hi : instants[i]? = some x)
    (hj : instants[j]? = some y) (hij : i ≤ j) : x.t ≤ y.t := by
  rcases hij.lt_or_eq with hij | rfl
  · exact (t_lt_of_getElem? hs hi hj hij).le
  · rw [hi] at hj
    cases hj
    rfl

lemma firstT_le_of_getElem? {i : ℕ} {x : TInstant V} (hi : instants[i]? = some x) :
    firstT instants ≤ x.t := by
  obtain ⟨hlen, -⟩ := List.getElem?_eq_some_iff.mp hi
  have hy := List.getElem?_eq_getElem (show 0 < instants.length by omega)
  simp only [firstT, List.head?_eq_getElem?, hy, Option.map_some', Option.getD_some]
  exact t_le_of_getElem? hs hy hi (Nat.zero_le _)

lemma le_lastT_of_getElem? {i : ℕ} {x : TInstant V} (hi : instants[i]? = some x) :
    x.t ≤ lastT instants := by
  obtain ⟨hlen, -⟩ := List.getElem?_eq_some_iff.mp hi
  have hy := List.getElem?_eq_getElem (show instants.length - 1 < instants.length by omega)
  simp only [lastT, List.getLast?_eq_getElem?, hy, Option.map_some', Option.getD_some]
  exact t_le_of_getElem? hs hi hy (by omega)

lemma t_lt_of_mem_take {k : ℕ} {x : TInstant V} (hx : instants[k]? = some x) :
    ∀ a ∈ instants.take k, a.t < x.t := by
  intro a ha
  obtain ⟨i, hi⟩ := List.mem_iff_getElem?.mp ha
  rw [List.getElem?_take] at hi
  split_ifs at hi with hik
  · exact t_lt_of_getElem? hs hi hx hik

lemma t_le_of_mem_drop {k : ℕ} {x : TInstant V} (hx : instants[k]? = some x) :
    ∀ b ∈ instants.drop k, x.t ≤ b.t := by
  intro b hb
  obtain ⟨i, hi⟩ := List.mem_iff_getElem?.mp hb
  rw [List.getElem?_drop] at hi
  exact t_le_of_getElem? hs hx hi (Nat.le_add_right k i)

end Sorted

end TemporalSequence
