import CurveArt.Color.Scheme
import CurveArt.Drawing.Style
import CurveArt.Text.Blank

/-!
# Choices of a drawing

The settings that are picked from a list, with their names. A name is read without the blanks around
it and in any case; where a name has two parts, a hyphen is as good as an underscore.
-/

namespace CurveArt

/-- What becomes of a step at which a formula has no value. -/
inductive FailurePolicy where
  /-- The whole point is left out. -/
  | drop
  /-- The missing coordinate is zero. -/
  | zero
  deriving Repr, DecidableEq, Inhabited

inductive Style where
  | points
  | lines
  | connectedLine
  | polar
  deriving Repr, DecidableEq, Inhabited

namespace Style

def all : List Style :=
  [.points, .lines, .connectedLine, .polar]

def name : Style → String
  | .points => "points"
  | .lines => "lines"
  | .connectedLine => "connected_line"
  | .polar => "polar"

/-- Dots and separate segments can have holes; a curve that runs through needs every step. -/
def failurePolicy : Style → FailurePolicy
  | .points | .lines => .drop
  | .connectedLine | .polar => .zero

def drawStyle : Style → DrawStyle
  | .points => .points
  | .lines | .polar => .lines
  | .connectedLine => .connectedLine

end Style

/-- How the styles other than polar walk the domain. -/
inductive Sampling where
  /-- One variable runs over the domain. -/
  | sweep
  /-- Two variables run over it, row by row. -/
  | grid
  deriving Repr, DecidableEq, Inhabited

namespace Sampling

def all : List Sampling :=
  [.sweep, .grid]

def name : Sampling → String
  | .sweep => "sweep"
  | .grid => "grid"

def vars : Sampling → List String
  | .sweep => ["x"]
  | .grid => ["x", "y"]

end Sampling

/-! ## Reading names -/

/-- A name as it is compared: without blanks around it, in lower case. -/
def comparedName (text : String) : String :=
  Text.lowered (Text.trimmed text)

/-- The same with underscores for hyphens. -/
def joinedName (text : String) : String :=
  String.ofList ((comparedName text).toList.map fun c => if c = '-' then '_' else c)

def Style.ofText (text : String) : Except String Style :=
  let name := joinedName text
  match Style.all.find? fun s => s.name == name with
  | some style => .ok style
  | none =>
    .error ("unknown style '" ++ name ++ "' (expected points, lines, connected_line or polar)")

def Sampling.ofText (text : String) : Except String Sampling :=
  let name := comparedName text
  match Sampling.all.find? fun s => s.name == name with
  | some sampling => .ok sampling
  | none => .error ("unknown sampling '" ++ name ++ "' (expected sweep or grid)")

/-- The gradients can also be named without the word gradient. -/
def ColorMode.ofText (text : String) : Except String ColorMode :=
  let name := joinedName text
  let full := if name = "linear" ∨ name = "radial" then name ++ "_gradient" else name
  match ColorMode.all.find? fun m => m.name == full with
  | some mode => .ok mode
  | none =>
    .error ("unknown color mode '" ++ name ++
      "' (expected solid, linear_gradient, radial_gradient or random)")

/-- The export format of a name. -/
def ExportFormat.ofText? (text : String) : Option ExportFormat :=
  match comparedName text with
  | "png" => some .png
  | "svg" => some .svg
  | _ => none

/-! ## File names -/

/-- The last component of a path that names something: empty components and single points name
nothing. -/
def lastComponent? (path : List Char) : Option (List Char) :=
  let components := (path.splitOn '/').filter fun part => part ≠ [] ∧ part ≠ ['.']
  match components.getLast? with
  | some ['.', '.'] => none
  | last => last

/-- What follows the last point of a file name, unless the point begins the name. -/
def extension? (path : List Char) : Option (List Char) :=
  match lastComponent? path with
  | none => none
  | some name =>
    let reversed := name.reverse
    let tail := reversed.takeWhile (· ≠ '.')
    match reversed.dropWhile (· ≠ '.') with
    | [] => none
    | [_] => none
    | _ => some tail.reverse

/-- The format that the extension of a path names. -/
def ExportFormat.ofPath? (path : String) : Option ExportFormat :=
  match extension? path.toList with
  | some extension => ExportFormat.ofText? (String.ofList extension)
  | none => none

end CurveArt
