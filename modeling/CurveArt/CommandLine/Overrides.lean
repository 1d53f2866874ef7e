import CurveArt.CommandLine.Arguments
import CurveArt.Settings.Content

/-!
# Settings from the command line

Flags override settings, whether these are stored or the default. Each field takes the value of its
flag where the flag is given and stays as it is otherwise; a preset is a formula of two variables,
so it turns grid sampling on unless the sampling is given too. This is done in steps, one after the
other: presets turn grid sampling on before a sampling that is given has its turn.
-/

namespace CurveArt

/-- A formula as the command line gives it. -/
inductive FormulaChoice where
  | text (formula : String)
  | preset (preset : Preset)
  deriving Repr, DecidableEq, Inhabited

namespace FormulaChoice

def formula : FormulaChoice → String
  | .text f => f
  | .preset p => p.formula

def isPreset : FormulaChoice → Bool
  | .text _ => false
  | .preset _ => true

/-- The choice where a text, a preset or neither is given. Both together are a misuse. -/
def ofGiven : Option String → Option Preset → Except Stop (Option FormulaChoice)
  | some _, some _ => .error .misuse
  | some f, none => .ok (some (.text f))
  | none, some p => .ok (some (.preset p))
  | none, none => .ok none

end FormulaChoice

/-- The settings that flags give. -/
structure Overrides where
  style : Option Style
  f1 : Option FormulaChoice
  f2 : Option FormulaChoice
  sampling : Option Sampling
  domain : Option (Float × Float)
  sampleCount : Option Nat
  colorMode : Option ColorMode
  color : Option Rgba
  color1 : Option Rgba
  color2 : Option Rgba
  alpha : Option Float
  pointSize : Option Float
  lineWidth : Option Float
  jitter : Option Float
  mirror : Option Bool
  rotationDegrees : Option Float
  backgroundColor : Option Rgba
  seed : Option UInt64
  figureSize : Option (Float × Float)
  deriving Repr, Inhabited

namespace Overrides

/-- The flags that override settings. -/
def flags : List Flag :=
  [.style, .f1, .f2, .preset1, .preset2, .sampling, .domain, .samples, .colorMode, .color, .color1,
    .color2, .alpha, .pointSize, .lineWidth, .jitter, .mirror, .noMirror, .rotation, .background,
    .seed, .figureSize]

/-- The override of a switch with one flag for either position. -/
def switch (on off : Bool) : Option Bool :=
  if on then some true else if off then some false else none

/-- The overrides among the arguments. Of a pair of numbers that is given more than once, the first
occurrence counts. -/
def ofArguments (a : Arguments) : Except Stop Overrides := do
  let f1 ← FormulaChoice.ofGiven (a.first? .f1) (a.first? .preset1)
  let f2 ← FormulaChoice.ofGiven (a.first? .f2) (a.first? .preset2)
  .ok
    { f1, f2
      style := a.first? .style
      sampling := a.first? .sampling
      domain := a.first? .domain
      sampleCount := a.first? .samples
      colorMode := a.first? .colorMode
      color := a.first? .color
      color1 := a.first? .color1
      color2 := a.first? .color2
      alpha := a.first? .alpha
      pointSize := a.first? .pointSize
      lineWidth := a.first? .lineWidth
      jitter := a.first? .jitter
      mirror := switch (a.has .mirror) (a.has .noMirror)
      rotationDegrees := a.first? .rotation
      backgroundColor := a.first? .background
      seed := a.first? .seed
      figureSize := a.first? .figureSize }

/-- Whether one of the formulas is a preset. -/
def usesPreset (o : Overrides) : Bool :=
  o.f1.any FormulaChoice.isPreset || o.f2.any FormulaChoice.isPreset

/-- What is given for a field. -/
def given? (o : Overrides) : (field : Field) → Option field.Content
  | .style => o.style
  | .f1 => o.f1.map FormulaChoice.formula
  | .f2 => o.f2.map FormulaChoice.formula
  | .sampling => o.sampling
  | .domain => o.domain
  | .sampleCount => o.sampleCount
  | .colorMode => o.colorMode
  | .color => o.color
  | .color1 => o.color1
  | .color2 => o.color2
  | .alpha => o.alpha
  | .pointSize => o.pointSize
  | .lineWidth => o.lineWidth
  | .jitter => o.jitter
  | .mirror => o.mirror
  | .rotationDegrees => o.rotationDegrees
  | .backgroundColor => o.backgroundColor
  | .seed => o.seed.map some
  | .figureSize => o.figureSize

/-- A step from settings to overridden settings. -/
inductive Step where
  /-- Presets turn grid sampling on. -/
  | presets
  /-- The field takes what is given for it. -/
  | assign (field : Field)
  deriving Repr, DecidableEq, Inhabited

namespace Step

/-- All steps in their order. -/
def all : List Step :=
  [.assign .style, .presets] ++ (Field.all.drop 1).map .assign

def perform (o : Overrides) (s : Settings) : Step → Settings
  | .presets => if o.usesPreset then s.set .sampling .grid else s
  | .assign field => (o.given? field).elim s (s.set field)

end Step

/-- The settings with all overrides. -/
def apply (o : Overrides) (s : Settings) : Settings :=
  Step.all.foldl (Step.perform o) s

end Overrides

end CurveArt
