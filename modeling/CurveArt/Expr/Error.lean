/-!
# Why a formula is refused
-/

namespace CurveArt

/-- What could have stood where a text goes wrong. -/
inductive Expected where
  /-- The start of an expression of which nothing has been read. -/
  | expression
  /-- The operand of a sign or an operator that has been read. -/
  | operand
  /-- More of an expression that may also end here. -/
  | operatorOrEnd
  /-- More of an expression inside parentheses. -/
  | operator
  deriving Repr, DecidableEq, Inhabited

def Expected.description : Expected → String
  | .expression => "Expression"
  | .operand => "Identifier, Number, Negate, or UnaryPlus"
  | .operatorOrEnd => "EOI, Power, Add, Subtract, Multiply, or Divide"
  | .operator => "Power, Add, Subtract, Multiply, or Divide"

/-- The greatest number of nodes of a text, as counted by `ParseTree.nodes`. -/
def maxNodes : Nat := 500

/-- The deepest nesting of parentheses. -/
def maxNesting : Nat := 64

inductive CompileError where
  | empty
  /-- The text, without surrounding blanks, is no expression. -/
  | unreadable (text : String) (column : Nat) (expected : Expected)
  | invalidVariable (name : String)
  | tooComplex
  | tooDeep
  deriving Repr, DecidableEq, Inhabited

def CompileError.message : CompileError → String
  | .empty => "empty expression"
  | .unreadable text column expected =>
    "cannot parse '" ++ text ++ "': column " ++ toString column ++ ": expected " ++
      expected.description
  | .invalidVariable name => "'" ++ name ++ "' cannot be used as a variable name"
  | .tooComplex => "expression is too complex (more than " ++ toString maxNodes ++ " syntax nodes)"
  | .tooDeep => "expression nests deeper than " ++ toString maxNesting ++ " levels"

end CurveArt
