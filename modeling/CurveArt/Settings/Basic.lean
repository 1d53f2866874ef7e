import CurveArt.Binary64.Extrema
import CurveArt.Generation.Error
import CurveArt.Settings.Choice

/-!
# Settings

Everything that one drawing needs. `Settings.validate` checks the ranges of all numbers before any
formula is looked at, in a fixed order, so of several wrong settings the first one in that order is
reported.
-/

namespace CurveArt

structure Settings where
  style : Style
  /-- The first coordinate, or the radius in polar style. -/
  f1 : String
  /-- The second coordinate, or the angle in polar style. -/
  f2 : String
  sampling : Sampling
  domain : Float × Float
  sampleCount : Nat
  colorMode : ColorMode
  color : Rgba
  color1 : Rgba
  color2 : Rgba
  alpha : Float
  pointSize : Float
  lineWidth : Float
  /-- The width of the noise that is added to each coordinate. -/
  jitter : Float
  mirror : Bool
  rotationDegrees : Float
  backgroundColor : Rgba
  seed : Option UInt64
  /-- Width and height in inches. -/
  figureSize : Float × Float
  deriving Repr, Inhabited

namespace Settings

/-- What holds where nothing is set. -/
def default : Settings where
  style := .points
  f1 := "sin(x)"
  f2 := "cos(x)"
  sampling := .sweep
  domain := (-3.141592653589793, 3.141592653589793)
  sampleCount := 1000
  colorMode := .solid
  color := Rgba.ofBytes 0x1f 0x77 0xb4
  color1 := Rgba.ofBytes 0x1e 0x88 0xe5
  color2 := Rgba.ofBytes 0xff 0x7f 0x0e
  alpha := 0.5
  pointSize := 2.0
  lineWidth := 1.0
  jitter := 0.0
  mirror := false
  rotationDegrees := 0.0
  backgroundColor := Rgba.white
  seed := none
  figureSize := (12.0, 10.0)

/-- The variables of the two formulas. -/
def vars (s : Settings) : List String :=
  match s.style with
  | .polar => ["t"]
  | _ => s.sampling.vars

/-- What the two formulas are called in messages. -/
def slots (s : Settings) : Slot × Slot :=
  match s.style with
  | .polar => (.r, .theta)
  | _ => (.f1, .f2)

/-! ## Ranges -/

/-- A domain to walk has two finite ends, the lower one first. -/
def validDomain (domain : Float × Float) : Bool :=
  domain.1.isFinite && domain.2.isFinite && !decide (domain.2 ≤ domain.1)

/-- The measures of a drawing with their values, in the order in which they are checked. -/
def measures (s : Settings) : List (Measure × Float) :=
  [(.pointSize, s.pointSize), (.lineWidth, s.lineWidth), (.figureWidth, s.figureSize.1),
    (.figureHeight, s.figureSize.2)]

def validMeasure (value : Float) : Bool :=
  value.isFinite && !decide (value ≤ 0.0)

/-- Checks the range of every number. The polar style has no domain. -/
def validate (s : Settings) : Except GenerationError Unit :=
  if s.sampleCount < minSampleCount ∨ maxSampleCount < s.sampleCount then
    .error (.sampleCount s.sampleCount)
  else if s.style ≠ .polar ∧ !validDomain s.domain then
    .error (.domain s.domain.1 s.domain.2)
  else if !Binary64.within 0.0 1.0 s.alpha then
    .error (.alpha s.alpha)
  else if !s.jitter.isFinite || s.jitter < 0.0 then
    .error (.jitter s.jitter)
  else if !Binary64.within 0.0 360.0 s.rotationDegrees then
    .error (.rotation s.rotationDegrees)
  else
    match s.measures.find? fun m => !validMeasure m.2 with
    | some (measure, value) => .error (.size measure value)
    | none => .ok ()

end Settings

end CurveArt
