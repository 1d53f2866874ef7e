import CurveArt.Decimal.Layout
import CurveArt.Expr.Error
import CurveArt.Random.Draw

/-!
# Why a drawing is not made
-/

namespace CurveArt

/-- Which of the two formulas of a drawing is meant. -/
inductive Slot where
  | f1
  | f2
  /-- The radius of the polar style. -/
  | r
  /-- The angle of the polar style. -/
  | theta
  deriving Repr, DecidableEq, Inhabited

def Slot.label : Slot → String
  | .f1 => "f1"
  | .f2 => "f2"
  | .r => "r"
  | .theta => "theta"

/-- The settings that have to be positive. -/
inductive Measure where
  | pointSize
  | lineWidth
  | figureWidth
  | figureHeight
  deriving Repr, DecidableEq, Inhabited

def Measure.label : Measure → String
  | .pointSize => "point_size"
  | .lineWidth => "line_width"
  | .figureWidth => "figure width"
  | .figureHeight => "figure height"

/-- The bounds of the number of samples. -/
def minSampleCount : Nat := 2

def maxSampleCount : Nat := 1000000

inductive GenerationError where
  | compile (slot : Slot) (cause : CompileError)
  | sampleCount (found : Nat)
  | domain (lo hi : Float)
  | alpha (found : Float)
  | jitter (found : Float)
  | rotation (found : Float)
  | size (measure : Measure) (found : Float)
  /-- No point is left; the texts are those of the two formulas. -/
  | allSamplesFailed (first second : String)
  /-- The range that jitter is drawn from gives no number. -/
  | noise (cause : Random.DrawError)
  deriving Repr, Inhabited

def GenerationError.message : GenerationError → String
  | .compile slot cause => slot.label ++ " expression: " ++ cause.message
  | .sampleCount found =>
    "sample count must be between " ++ toString minSampleCount ++ " and " ++
      toString maxSampleCount ++ ", got " ++ toString found
  | .domain lo hi =>
    "domain [" ++ plainText lo ++ ", " ++ plainText hi ++ "] must be finite with lo < hi"
  | .alpha found => "alpha must be in [0, 1], got " ++ plainText found
  | .jitter found => "jitter must be a finite value >= 0, got " ++ plainText found
  | .rotation found => "rotation must be in [0, 360] degrees, got " ++ plainText found
  | .size measure found => measure.label ++ " must be a finite value > 0, got " ++ plainText found
  | .allSamplesFailed first second =>
    "every sample failed for '" ++ first ++ "' and '" ++ second ++ "'; try different expressions"
  | .noise _ => "the jitter is too small or too large to draw from"

end CurveArt
