/-!
# The vocabulary of formulas

Everything a formula can call or name, apart from its own variables. The list is closed: there is no
other way to reach anything from a formula.
-/

namespace CurveArt

/-- Functions of one real number. -/
inductive RealFunction where
  | sin
  | cos
  | tan
  | exp
  | log
  | sqrt
  | abs
  deriving Repr, DecidableEq, Inhabited

def RealFunction.name : RealFunction → String
  | .sin => "sin"
  | .cos => "cos"
  | .tan => "tan"
  | .exp => "exp"
  | .log => "log"
  | .sqrt => "sqrt"
  | .abs => "abs"

/-- What a formula can call. -/
inductive Builtin where
  | real (f : RealFunction)
  /-- A number from the formula's own random stream. -/
  | random
  deriving Repr, DecidableEq, Inhabited

namespace Builtin

def all : List Builtin :=
  [.real .sin, .real .cos, .real .tan, .real .exp, .real .log, .real .sqrt, .real .abs, .random]

def name : Builtin → String
  | .real f => f.name
  | .random => "random"

/-- The number of arguments. -/
def arity : Builtin → Nat
  | .real _ => 1
  | .random => 0

def ofName? (name : String) : Option Builtin :=
  all.find? fun b => b.name == name

end Builtin

/-- The named numbers. -/
def constants : List (String × Float) :=
  [("pi", 3.141592653589793), ("e", 2.718281828459045)]

def constant? (name : String) : Option Float :=
  (constants.find? fun c => c.1 == name).map Prod.snd

/-- The qualifier that names of the vocabulary may carry. -/
def qualifier : List Char := ['m', 'a', 't', 'h', '.']

/-- The name without the qualifier. A name with further points is left alone, and so stays outside
the vocabulary. -/
def unqualified (name : String) : String :=
  let chars := name.toList
  let rest := chars.drop qualifier.length
  if qualifier.isPrefixOf chars ∧ !rest.contains '.' then String.ofList rest else name

end CurveArt
