import TemporalSequence.Construction

/-!
# Error branches reached by valid inputs

`tsequence_from_base_internal` builds its two instants at the bounds of the period
and hands them to `tsequence_make`. An instantaneous period `[t, t]` is valid, but
its two instants share their timestamp and the validation of `tsequence_make`
rejects them.
-/

namespace TemporalSequence

/-- The constant sequence over an instantaneous period is rejected, for every base
type, value and interpolation. -/
theorem tsequenceFromBaseInternal_instant_period_error {V B : Type} [DecidableEq V]
    (bt : BaseType V) (bx : BBoxOps V B) (value : V) (t : ℤ) (linear : Bool) :
    tsequenceFromBaseInternal bt bx value ⟨t, t, true, true⟩ linear =
      .error "Timestamps for temporal value must be increasing" := by
  simp [tsequenceFromBaseInternal, tsequenceMake, tsequenceMakeCheck, ensureValidTinstantarr]
  rfl

end TemporalSequence
