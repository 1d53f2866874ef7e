import CurveArt.Decimal.Layout

/-!
# Expressions

The formulas of a curve: numbers, names, calls, signs and the five binary operators. Names are kept
as written; what they stand for is decided where a formula is compiled. `Expr.text` writes an
expression out with parentheses around every binary operation.
-/

namespace CurveArt

inductive BinaryOp where
  | plus
  | minus
  | times
  | divide
  | power
  deriving Repr, DecidableEq, Inhabited

/-- A sign in front of an operand. -/
inductive Sign where
  | plus
  | minus
  deriving Repr, DecidableEq, Inhabited

inductive Expr where
  | number (value : Float)
  | name (name : String)
  | call (function : String) (arguments : List Expr)
  | signed (sign : Sign) (operand : Expr)
  | binary (op : BinaryOp) (left right : Expr)
  deriving Repr, Inhabited

def BinaryOp.symbol : BinaryOp → String
  | .plus => "+"
  | .minus => "-"
  | .times => "*"
  | .divide => "/"
  | .power => "**"

def Sign.symbol : Sign → String
  | .plus => "+"
  | .minus => "-"

namespace Expr

mutual

/-- The expression written out. Only binary operations get parentheses. -/
def text : Expr → String
  | .number value => plainText value
  | .name word => word
  | .call function arguments => function ++ "(" ++ argumentsText arguments ++ ")"
  | .signed sign operand => sign.symbol ++ operand.text
  | .binary op left right => "(" ++ left.text ++ " " ++ op.symbol ++ " " ++ right.text ++ ")"

/-- Arguments with commas between them. -/
def argumentsText : List Expr → String
  | [] => ""
  | [e] => e.text
  | e :: rest => e.text ++ ", " ++ argumentsText rest

end

end Expr

end CurveArt
