import CurveArt.Text.Blank

/-!
# Ready-made formulas

A preset is a formula of two variables made of one function and one operation, `f(x) op f(y)`; it is
named `function:operation`. The gallery lists some further formulas to start from.
-/

namespace CurveArt

inductive PresetFunction where
  | sin
  | cos
  | tan
  | exp
  | sqrt
  deriving Repr, DecidableEq, Inhabited

def PresetFunction.all : List PresetFunction :=
  [.sin, .cos, .tan, .exp, .sqrt]

def PresetFunction.name : PresetFunction → String
  | .sin => "sin"
  | .cos => "cos"
  | .tan => "tan"
  | .exp => "exp"
  | .sqrt => "sqrt"

inductive PresetOperation where
  | add
  | subtract
  | multiply
  | divide
  deriving Repr, DecidableEq, Inhabited

def PresetOperation.all : List PresetOperation :=
  [.add, .subtract, .multiply, .divide]

def PresetOperation.symbol : PresetOperation → String
  | .add => "+"
  | .subtract => "-"
  | .multiply => "*"
  | .divide => "/"

structure Preset where
  function : PresetFunction
  operation : PresetOperation
  deriving Repr, DecidableEq, Inhabited

namespace Preset

/-- All presets, one function after the other. -/
def all : List Preset :=
  PresetFunction.all.flatMap fun function =>
    PresetOperation.all.map fun operation => ⟨function, operation⟩

def name (p : Preset) : String :=
  p.function.name ++ ":" ++ p.operation.symbol

/-- The formula of a preset. -/
def formula (p : Preset) : String :=
  p.function.name ++ "(x) " ++ p.operation.symbol ++ " " ++ p.function.name ++ "(y)"

/-- Reads a preset's name. Blanks are allowed around either part, and messages quote a part with
them. -/
def ofText (text : String) : Except String Preset :=
  let chars := text.toList
  match chars.dropWhile (· ≠ ':') with
  | [] => .error ("preset '" ++ text ++ "' must look like 'sin:+'")
  | _ :: symbol =>
    let name := chars.takeWhile (· ≠ ':')
    match PresetFunction.all.find? fun f => f.name.toList == Text.trim name with
    | none => .error ("unknown preset function '" ++ String.ofList name ++ "'")
    | some function =>
      match PresetOperation.all.find? fun o => o.symbol.toList == Text.trim symbol with
      | none => .error ("unknown preset operation '" ++ String.ofList symbol ++ "'")
      | some operation => .ok ⟨function, operation⟩

end Preset

/-- Formulas offered as starting points. -/
def gallery : List String :=
  ["sin(x*y)", "cos(x+y)", "x*sin(y)", "y*cos(x)", "tan(x*y)", "x^2 - y^2"]

end CurveArt
