import CurveArt.Main
import CurveArt.Proofs.Binary64.Extrema
import CurveArt.Proofs.Binary64.Halving
import CurveArt.Proofs.Binary64.Hypotenuse
import CurveArt.Proofs.Binary64.Nearest
import CurveArt.Proofs.Binary64.Operations
import CurveArt.Proofs.Binary64.Overflow
import CurveArt.Proofs.Binary64.Parts
import CurveArt.Proofs.Binary64.Powers
import CurveArt.Proofs.Binary64.Rounding
import CurveArt.Proofs.Binary64.Scientific
import CurveArt.Proofs.Binary64.UnitInterval
import CurveArt.Proofs.Binary64.Unsigned
import CurveArt.Proofs.Binary64.Values
import CurveArt.Proofs.Binary64.Whole
import CurveArt.Proofs.Color.Gradient
import CurveArt.Proofs.Color.Range
import CurveArt.Proofs.Color.Spelling
import CurveArt.Proofs.Color.Text
import CurveArt.Proofs.CommandLine.Precedence
import CurveArt.Proofs.Curve.Apart
import CurveArt.Proofs.Curve.Gaps
import CurveArt.Proofs.Curve.Images
import CurveArt.Proofs.Curve.Inputs
import CurveArt.Proofs.Curve.Lattice
import CurveArt.Proofs.Curve.NoiseRange
import CurveArt.Proofs.Curve.Reported
import CurveArt.Proofs.Curve.Settling
import CurveArt.Proofs.Curve.Spacing
import CurveArt.Proofs.Curve.Steps
import CurveArt.Proofs.Curve.Sweep
import CurveArt.Proofs.Decimal.Numeral
import CurveArt.Proofs.Decimal.ReadBack
import CurveArt.Proofs.Decimal.Shortest
import CurveArt.Proofs.Drawing.Lookup
import CurveArt.Proofs.Drawing.Marks
import CurveArt.Proofs.Drawing.View
import CurveArt.Proofs.Expr.Acceptance
import CurveArt.Proofs.Expr.Boundaries
import CurveArt.Proofs.Expr.Constituents
import CurveArt.Proofs.Expr.Depth
import CurveArt.Proofs.Expr.Faults
import CurveArt.Proofs.Expr.Grammar
import CurveArt.Proofs.Expr.Limits
import CurveArt.Proofs.Expr.Phrases
import CurveArt.Proofs.Expr.Printed
import CurveArt.Proofs.Expr.Renaming
import CurveArt.Proofs.Expr.Reread
import CurveArt.Proofs.Expr.Respelling
import CurveArt.Proofs.Expr.RoundTrip
import CurveArt.Proofs.Expr.ShiftReduce
import CurveArt.Proofs.Expr.Spelling
import CurveArt.Proofs.Expr.Surroundings
import CurveArt.Proofs.Formula.Accounting
import CurveArt.Proofs.Formula.Alone
import CurveArt.Proofs.Formula.Binding
import CurveArt.Proofs.Formula.Declaration
import CurveArt.Proofs.Formula.Draws
import CurveArt.Proofs.Formula.PostOrder
import CurveArt.Proofs.Formula.Qualifier
import CurveArt.Proofs.Formula.Scope
import CurveArt.Proofs.Formula.Unchecked
import CurveArt.Proofs.Generation.Answer
import CurveArt.Proofs.Generation.Appearance
import CurveArt.Proofs.Generation.Colors
import CurveArt.Proofs.Generation.Mirroring
import CurveArt.Proofs.Generation.NoiseSequence
import CurveArt.Proofs.Generation.Refusal
import CurveArt.Proofs.Generation.Requests
import CurveArt.Proofs.Generation.Run
import CurveArt.Proofs.Generation.Seeds
import CurveArt.Proofs.Generation.Trace
import CurveArt.Proofs.Json.Decided
import CurveArt.Proofs.Json.Numbers
import CurveArt.Proofs.Json.Rereading
import CurveArt.Proofs.Json.Scaling
import CurveArt.Proofs.Json.StoredNumbers
import CurveArt.Proofs.Json.Values
import CurveArt.Proofs.Random.Candidates
import CurveArt.Proofs.Random.Rejection
import CurveArt.Proofs.Settings.Bounds
import CurveArt.Proofs.Settings.Members
import CurveArt.Proofs.Settings.Reloaded
import CurveArt.Proofs.Settings.Stored
import CurveArt.Proofs.Settings.Summary
