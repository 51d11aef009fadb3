import TemporalSequence.Construction

/-!
# The representation invariant of a sequence

What `tsequence_make` establishes about the sequence it returns: at least one
instant, increasing timestamps, the period spanning the first and the last instant,
inclusive bounds for a single instant, equal last two values for a step sequence
with an exclusive upper bound, a normalized instant array and the box computed from
the instants. A sequence satisfies the invariant exactly when `tsequence_make`
with normalization gives it back from its own instants and bounds, so functions
that assemble a sequence by hand keep the invariant only if they agree with
`tsequence_make`.
-/

namespace TemporalSequence

variable {V B : Type} [DecidableEq V]

/-- The representation invariant of a sequence, for the segment math `bt` and the
box functions `bx` of its base type. -/
@[mk_iff]
structure TSequence.Valid (bt : BaseType V) (bx : BBoxOps V B) (seq : TSequence V B) : Prop where
  /-- `count > 0`. -/
  nonempty : seq.instants ≠ []
  /-- `ensure_valid_tinstantarr`. -/
  increasing : seq.instants.Chain' fun inst1 inst2 => inst1.t < inst2.t
  /-- The period spans the instants. -/
  period : seq.period = periodOf seq.instants seq.period.lowerInc seq.period.upperInc
  /-- An instantaneous sequence has inclusive bounds. -/
  instantBounds : ¬(seq.instants.length = 1 ∧ (!seq.period.lowerInc ∨ !seq.period.upperInc))
  /-- A step sequence with an exclusive upper bound ends with two equal values. -/
  endValue : ¬(!seq.linear ∧ (lastTwo? seq.instants).any (fun p => p.1.value ≠ p.2.value) ∧
    !seq.period.upperInc)
  /-- The instant array is a fixpoint of `tinstantarr_normalize`. -/
  normalized : tinstantarrNormalize bt seq.instants seq.linear = seq.instants
  /-- The cached box is the box of the instants. -/
  bbox : seq.bbox = bx.make seq.instants seq.period.lowerInc seq.period.upperInc

/-- The part of the invariant that `tsequence_make` checks without normalizing: what
the restriction functions rely on, and what the sequences they build satisfy. -/
structure TSequence.WellFormed (seq : TSequence V B) : Prop where
  /-- `count > 0`. -/
  nonempty : seq.instants ≠ []
  /-- `ensure_valid_tinstantarr`. -/
  increasing : seq.instants.Chain' fun inst1 inst2 => inst1.t < inst2.t
  /-- The period spans the instants. -/
  period : seq.period = periodOf seq.instants seq.period.lowerInc seq.period.upperInc
  /-- An instantaneous sequence has inclusive bounds. -/
  instantBounds : ¬(seq.instants.length = 1 ∧ (!seq.period.lowerInc ∨ !seq.period.upperInc))
  /-- A step sequence with an exclusive upper bound ends with two equal values. -/
  endValue : ¬(!seq.linear ∧ (lastTwo? seq.instants).any (fun p => p.1.value ≠ p.2.value) ∧
    !seq.period.upperInc)

theorem TSequence.Valid.wellFormed {bt : BaseType V} {bx : BBoxOps V B} {seq : TSequence V B}
    (h : seq.Valid bt bx) : seq.WellFormed :=
  ⟨h.nonempty, h.increasing, h.period, h.instantBounds, h.endValue⟩

theorem tsequenceMake_wellFormed {bt : BaseType V} {bx : BBoxOps V B}
    {instants : List (TInstant V)} {lowerInc upperInc linear : Bool} {seq : TSequence V B}
    (h : tsequenceMake bt bx instants lowerInc upperInc linear false = .ok seq) :
    seq.WellFormed := by
  obtain ⟨hcheck, rfl⟩ := tsequenceMake_eq_ok.mp h
  obtain ⟨hne, hinc, hinst, hend⟩ := tsequenceMakeCheck_eq_ok.mp hcheck
  exact ⟨by simpa using hne, by simpa using hinc, by simp, by simpa using hinst,
    by simpa using hend⟩

lemma tsequenceMake_valid {bt : BaseType V} {bx : BBoxOps V B} {instants : List (TInstant V)}
    {lowerInc upperInc linear : Bool} {seq : TSequence V B}
    (h : tsequenceMake bt bx instants lowerInc upperInc linear false = .ok seq)
    (hn : tinstantarrNormalize bt instants linear = instants) : seq.Valid bt bx := by
  have hwf := tsequenceMake_wellFormed h
  obtain ⟨-, rfl⟩ := tsequenceMake_eq_ok.mp h
  exact ⟨hwf.nonempty, hwf.increasing, hwf.period, hwf.instantBounds, hwf.endValue,
    by simpa using hn, rfl⟩

instance [DecidableEq B] (bt : BaseType V) (bx : BBoxOps V B) (seq : TSequence V B) :
    Decidable (seq.Valid bt bx) :=
  decidable_of_iff _ (TSequence.valid_iff bt bx seq).symm

lemma tinstantarrNormalize_eq_ite (bt : BaseType V) (instants : List (TInstant V)) (linear : Bool) :
    (if 1 < instants.length then tinstantarrNormalize bt instants linear else instants) =
      tinstantarrNormalize bt instants linear := by
  match instants with
  | [] => rfl
  | [_] => rfl
  | _ :: _ :: _ => simp

end TemporalSequence
