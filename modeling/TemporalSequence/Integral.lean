import TemporalSequence.Basic

/-!
# The integral and the time-weighted average of a temporal number

`tnumberseq_integral` adds the area under each segment of a sequence: the trapezoid
between its two values with linear interpolation, the rectangle of its start value
with step interpolation. `tnumberseq_twavg` divides it by the duration of the period,
and takes the value of the first instant when the period has no duration. Values are read as doubles by `toDouble`, which is
`datum_double` (the identity on floats); timestamp differences are converted to
doubles.
-/

namespace TemporalSequence

variable {V B : Type}

/-- The area of the segment `inst1 -> inst2` that `tnumberseq_integral` adds. -/
def segmentArea (toDouble : V → ℚ) (linear : Bool) (inst1 inst2 : TInstant V) : ℚ :=
  if linear then
    (max (toDouble inst1.value) (toDouble inst2.value) +
      min (toDouble inst1.value) (toDouble inst2.value)) * ((inst2.t - inst1.t : ℤ) : ℚ) / 2
  else toDouble inst1.value * ((inst2.t - inst1.t : ℤ) : ℚ)

/-- The loop of `tnumberseq_integral`, adding the area of each segment to `result`. -/
def tnumberseqIntegralLoop (toDouble : V → ℚ) (linear : Bool) (result : ℚ) :
    TInstant V → List (TInstant V) → ℚ
  | _, [] => result
  | inst1, inst2 :: rest =>
    tnumberseqIntegralLoop toDouble linear (result + segmentArea toDouble linear inst1 inst2)
      inst2 rest

/-- `tnumberseq_integral`. -/
def tnumberseqIntegral (toDouble : V → ℚ) (seq : TSequence V B) : ℚ :=
  match seq.instants with
  | [] => 0
  | inst1 :: rest => tnumberseqIntegralLoop toDouble seq.linear 0 inst1 rest

/-- `tnumberseq_twavg`. -/
def tnumberseqTwavg (toDouble : V → ℚ) (seq : TSequence V B) : ℚ :=
  let duration : ℚ := ((seq.period.upper - seq.period.lower : ℤ) : ℚ)
  if duration = 0 then (seq.instants.head?.map fun inst => toDouble inst.value).getD 0
  else tnumberseqIntegral toDouble seq / duration

end TemporalSequence
