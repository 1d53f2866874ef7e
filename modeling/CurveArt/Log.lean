import CurveArt.Formula.Error
import CurveArt.Settings.Choice

/-!
# The log of a run

What happens during a run is recorded as data, in order; the wording is added where records are
shown. Functions that log return a `Logged` value: their result together with their records.
-/

namespace CurveArt

inductive Level where
  | warn
  | info
  | debug
  | trace
  deriving Repr, DecidableEq, Inhabited

def Level.name : Level → String
  | .warn => "WARN"
  | .info => "INFO"
  | .debug => "DEBUG"
  | .trace => "TRACE"

/-- The range that a missing seed is drawn from. -/
def seedRange : Nat × Nat := (1, 100000)

inductive Event where
  | generating (style : Style) (seed : UInt64)
  /-- A formula has no value at the inputs. -/
  | evaluationFailed (source : String) (inputs : List Float) (cause : EvalError)
  /-- A pass over all inputs has ended; the texts are those of the two formulas. -/
  | sampled (kept total failed : Nat) (first second : String)
  | allDefaulted
  /-- So many points stopped being finite when they were transformed. -/
  | leftFiniteRange (affected : Nat)
  | assembled (points colors : Nat)
  /-- A picture of the given size in pixels, with the length of its text if that is known. -/
  | exported (format : ExportFormat) (width height : Nat) (bytes : Option Nat)
  | seedMissing
  | samplesFailed (failed total : Nat)
  | wrote (path : String) (format : ExportFormat) (bytes : Option Nat)
  deriving Repr, Inhabited

namespace Event

def level : Event → Level
  | .generating .. => .info
  | .evaluationFailed .. => .trace
  | .sampled .. => .debug
  | .allDefaulted => .warn
  | .leftFiniteRange _ => .warn
  | .assembled .. => .debug
  | .exported .. => .debug
  | .seedMissing => .info
  | .samplesFailed .. => .warn
  | .wrote .. => .info

/-- Inputs as a list in brackets. -/
def inputsText (inputs : List Float) : String :=
  "[" ++ ", ".intercalate (inputs.map NumberStyle.listed.render) ++ "]"

/-- The length of a picture's text behind a comma, if it is known. -/
def bytesText : Option Nat → String
  | some n => ", " ++ toString n ++ " bytes"
  | none => ""

def message : Event → String
  | .generating style seed =>
    "generating " ++ style.name ++ " image with seed " ++ toString seed
  | .evaluationFailed source inputs cause =>
    source ++ " failed at " ++ inputsText inputs ++ ": " ++ cause.message
  | .sampled kept total failed first second =>
    "sampled " ++ toString kept ++ " / " ++ toString total ++ " (" ++ toString failed ++
      " failed) for " ++ first ++ " ; " ++ second
  | .allDefaulted => "every sample failed; all points defaulted to zero"
  | .leftFiniteRange affected =>
    toString affected ++ " transformed point(s) left the finite range"
  | .assembled points colors =>
    "assembled " ++ toString points ++ " points, " ++ toString colors ++ " colors"
  | .exported format width height bytes =>
    format.name ++ " " ++ toString width ++ "x" ++ toString height ++ " px" ++ bytesText bytes
  | .seedMissing =>
    "no seed given, drawing one from " ++ toString seedRange.1 ++ "..=" ++ toString seedRange.2
  | .samplesFailed failed total =>
    toString failed ++ " of " ++ toString total ++ " samples failed"
  | .wrote path format bytes => "wrote " ++ path ++ " (" ++ format.name ++ bytesText bytes ++ ")"

end Event

/-- A result with the records of how it came about. -/
structure Logged (α : Type) where
  value : α
  events : List Event
  deriving Inhabited

end CurveArt
