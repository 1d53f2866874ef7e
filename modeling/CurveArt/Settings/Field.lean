import CurveArt.Color.Text
import CurveArt.Json.Reading
import CurveArt.Json.Value
import CurveArt.Settings.Basic

/-!
# The fields of stored settings

Each setting is stored under a key of its own; the two formulas have a second key, which suits the
polar style. `Field.value` writes a field and `Field.update` reads one.
-/

namespace CurveArt

inductive Field where
  | style
  | f1
  | f2
  | sampling
  | domain
  | sampleCount
  | colorMode
  | color
  | color1
  | color2
  | alpha
  | pointSize
  | lineWidth
  | jitter
  | mirror
  | rotationDegrees
  | backgroundColor
  | seed
  | figureSize
  deriving Repr, DecidableEq, Inhabited

namespace Field

/-- The fields in the order in which they are stored. -/
def all : List Field :=
  [.style, .f1, .f2, .sampling, .domain, .sampleCount, .colorMode, .color, .color1, .color2, .alpha,
    .pointSize, .lineWidth, .jitter, .mirror, .rotationDegrees, .backgroundColor, .seed,
    .figureSize]

/-- The key that a field is stored under. -/
def key : Field → String
  | .style => "style"
  | .f1 => "f1_expr"
  | .f2 => "f2_expr"
  | .sampling => "sampling"
  | .domain => "domain"
  | .sampleCount => "sample_count"
  | .colorMode => "color_mode"
  | .color => "color"
  | .color1 => "color1"
  | .color2 => "color2"
  | .alpha => "alpha"
  | .pointSize => "point_size"
  | .lineWidth => "line_width"
  | .jitter => "jitter"
  | .mirror => "mirror"
  | .rotationDegrees => "rotation_degrees"
  | .backgroundColor => "background_color"
  | .seed => "seed"
  | .figureSize => "figure_size"

/-- All keys that a field is read from, the one that it is stored under first. -/
def keys : Field → List String
  | .f1 => ["f1_expr", "r_expr"]
  | .f2 => ["f2_expr", "theta_expr"]
  | field => [field.key]

def ofKey? (key : String) : Option Field :=
  all.find? fun field => field.keys.contains key

/-- All keys, in the order of the fields. -/
def knownKeys : List String :=
  all.flatMap keys

/-! ## Writing -/

def pairValue (p : Float × Float) : Json.Value :=
  .sequence [.ofFloat p.1, .ofFloat p.2]

/-- The value that a field is stored with. -/
def value (s : Settings) : Field → Json.Value
  | .style => .text s.style.name
  | .f1 => .text s.f1
  | .f2 => .text s.f2
  | .sampling => .text s.sampling.name
  | .domain => pairValue s.domain
  | .sampleCount => .number (toString s.sampleCount)
  | .colorMode => .text s.colorMode.name
  | .color => .text s.color.text
  | .color1 => .text s.color1.text
  | .color2 => .text s.color2.text
  | .alpha => .ofFloat s.alpha
  | .pointSize => .ofFloat s.pointSize
  | .lineWidth => .ofFloat s.lineWidth
  | .jitter => .ofFloat s.jitter
  | .mirror => .boolean s.mirror
  | .rotationDegrees => .ofFloat s.rotationDegrees
  | .backgroundColor => .text s.backgroundColor.text
  | .seed =>
    match s.seed with
    | some n => .number (toString n)
    | none => .null
  | .figureSize => pairValue s.figureSize

/-! ## Reading -/

open Json (Reader ReadError)

/-- Reads a colour from its text. -/
def readColor : Reader Rgba := fun text => do
  let (word, rest) ← Json.readText "a string" text
  match Rgba.ofText? word with
  | some c => .ok (c, rest)
  | none => .error (.invalidColor word)

def styleNames : List (String × Style) :=
  Style.all.map fun s => (s.name, s)

def samplingNames : List (String × Sampling) :=
  Sampling.all.map fun s => (s.name, s)

def colorModeNames : List (String × ColorMode) :=
  ColorMode.all.map fun m => (m.name, m)

/-- Reads a value and puts it into settings. -/
def put {α : Type} (read : Reader α) (set : α → Settings) : Reader Settings := fun text => do
  let (value, rest) ← read text
  .ok (set value, rest)

/-- Reads the value of a field into settings. -/
def update (s : Settings) : Field → Reader Settings
  | .style => put (Json.readChoice styleNames) fun v => { s with style := v }
  | .f1 => put (Json.readText "a string") fun v => { s with f1 := v }
  | .f2 => put (Json.readText "a string") fun v => { s with f2 := v }
  | .sampling => put (Json.readChoice samplingNames) fun v => { s with sampling := v }
  | .domain => put Json.readPair fun v => { s with domain := v }
  | .sampleCount => put (Json.readNatural "usize") fun v => { s with sampleCount := v }
  | .colorMode => put (Json.readChoice colorModeNames) fun v => { s with colorMode := v }
  | .color => put readColor fun v => { s with color := v }
  | .color1 => put readColor fun v => { s with color1 := v }
  | .color2 => put readColor fun v => { s with color2 := v }
  | .alpha => put Json.readFloat fun v => { s with alpha := v }
  | .pointSize => put Json.readFloat fun v => { s with pointSize := v }
  | .lineWidth => put Json.readFloat fun v => { s with lineWidth := v }
  | .jitter => put Json.readFloat fun v => { s with jitter := v }
  | .mirror => put Json.readBoolean fun v => { s with mirror := v }
  | .rotationDegrees => put Json.readFloat fun v => { s with rotationDegrees := v }
  | .backgroundColor => put readColor fun v => { s with backgroundColor := v }
  | .seed =>
    put (Json.readOptional (Json.readNatural "u64")) fun v => { s with seed := v.map Nat.toUInt64 }
  | .figureSize => put Json.readPair fun v => { s with figureSize := v }

end Field

end CurveArt
