import TemporalSequence.Basic
import TemporalSequence.SegmentMath
import TemporalSequence.Construction
import TemporalSequence.Search
import TemporalSequence.RestrictTime
import TemporalSequence.RestrictValue
import TemporalSequence.TNumber
import TemporalSequence.Invariant
import TemporalSequence.Semantics
import TemporalSequence.Proofs.Search
import TemporalSequence.Proofs.Period
import TemporalSequence.Proofs.RestrictPeriod
import TemporalSequence.Proofs.RestrictPeriodset
import TemporalSequence.Proofs.Crossing
import TemporalSequence.Proofs.Errors
import TemporalSequence.Proofs.RestrictTime
import TemporalSequence.Proofs.Restriction
import TemporalSequence.Proofs.Pieces
import TemporalSequence.Proofs.ValueSegment
import TemporalSequence.Proofs.ValueLoop
import TemporalSequence.Proofs.RestrictValue
import TemporalSequence.Proofs.RestrictRange
import TemporalSequence.Proofs.Normalize
import TemporalSequence.Proofs.Invariant
import TemporalSequence.Synchronize
import TemporalSequence.Proofs.SyncLoop
import TemporalSequence.Proofs.Synchronize
import TemporalSequence.Compare
import TemporalSequence.Proofs.Compare
import TemporalSequence.Layout
import TemporalSequence.Proofs.Layout
import TemporalSequence.Predicates
import TemporalSequence.Proofs.Predicates
import TemporalSequence.Proofs.Append
import TemporalSequence.Proofs.NormalizeValues
import TemporalSequence.Merge
import TemporalSequence.Proofs.Merge
import TemporalSequence.Proofs.NormalizeArray
import TemporalSequence.Restrict
import TemporalSequence.Proofs.Restrict
import TemporalSequence.Proofs.RestrictValues
import TemporalSequence.Intersection
import TemporalSequence.Proofs.Intersection
import TemporalSequence.TimeLine
import TemporalSequence.Proofs.EverAlways
import TemporalSequence.Proofs.StepToLinear
import TemporalSequence.Integral
import TemporalSequence.Proofs.Integral
import TemporalSequence.Proofs.Shift
import TemporalSequence.Proofs.Values
