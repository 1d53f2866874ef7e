import CurveArt.Expr.Basic

/-!
# Parse trees

A parse tree is an expression with the parenthesised groups that its text had. The groups do not
change what is meant, `expr` drops them, but they count towards the size and the depth of the text.
-/

namespace CurveArt

inductive ParseTree where
  | number (value : Float)
  | name (name : String)
  | call (function : String) (arguments : List ParseTree)
  | group (inner : ParseTree)
  | signed (sign : Sign) (operand : ParseTree)
  | binary (op : BinaryOp) (left right : ParseTree)
  deriving Repr, Inhabited

namespace ParseTree

mutual

/-- The expression that a tree stands for. -/
def expr : ParseTree → Expr
  | .number value => .number value
  | .name word => .name word
  | .call function arguments => .call function (exprs arguments)
  | .group inner => inner.expr
  | .signed sign operand => .signed sign operand.expr
  | .binary op left right => .binary op left.expr right.expr

def exprs : List ParseTree → List Expr
  | [] => []
  | tree :: rest => tree.expr :: exprs rest

end

mutual

/-- The size of a tree: one for each number, name, sign, operator and group, and for a call one for
itself, one for its name and one for each argument. -/
def size : ParseTree → Nat
  | .number _ => 1
  | .name _ => 1
  | .call _ arguments => 2 + argumentsSize arguments
  | .group inner => 1 + inner.size
  | .signed _ operand => 1 + operand.size
  | .binary _ left right => 1 + left.size + right.size

def argumentsSize : List ParseTree → Nat
  | [] => 0
  | tree :: rest => 1 + tree.size + argumentsSize rest

end

/-- The size of a whole text, which also counts its start, its outermost expression and its end. -/
def nodes (tree : ParseTree) : Nat :=
  tree.size + 3

mutual

/-- How deeply groups and argument lists are nested. -/
def depth : ParseTree → Nat
  | .number _ => 0
  | .name _ => 0
  | .call _ arguments => 1 + argumentsDepth arguments
  | .group inner => 1 + inner.depth
  | .signed _ operand => operand.depth
  | .binary _ left right => max left.depth right.depth

def argumentsDepth : List ParseTree → Nat
  | [] => 0
  | tree :: rest => max tree.depth (argumentsDepth rest)

end

end ParseTree

end CurveArt
