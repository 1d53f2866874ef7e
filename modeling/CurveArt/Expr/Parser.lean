import CurveArt.Expr.Error
import CurveArt.Expr.ParseTree
import CurveArt.Expr.Token
import CurveArt.Text.Blank

/-!
# Parsing expressions

The parser reads tokens from left to right and keeps a stack of what is still open: signs and left
operands that wait for an operand, groups and argument lists that wait for their parenthesis. A sign
binds looser than a power and tighter than a product, so `-x ** 2` is `-(x ** 2)` and `-x * y` is
`(-x) * y`; powers group to the right, the other operators to the left.

Every state can still be completed to an expression, so the first token that a state refuses is the
place where the text goes wrong.
-/

namespace CurveArt

namespace Parser

/-- Something that is still open to the left of the current token. -/
inductive Frame where
  | sign (sign : Sign)
  | left (op : BinaryOp) (operand : ParseTree)
  | group
  /-- An argument list, with the arguments read so far, the last one first. -/
  | call (function : String) (reversed : List ParseTree)
  deriving Repr, Inhabited

inductive State where
  /-- An operand has to follow; `fresh` says that nothing of its expression has been read. -/
  | operand (fresh : Bool) (stack : List Frame)
  /-- A name has been read, which a parenthesis turns into a call. -/
  | named (name : String) (stack : List Frame)
  /-- An operand has been read. -/
  | operator (tree : ParseTree) (stack : List Frame)
  deriving Repr, Inhabited

def start : State := .operand true []

/-- How tightly an operator holds its left operand. -/
def rank : BinaryOp → Nat
  | .plus | .minus => 0
  | .times | .divide => 1
  | .power => 3

/-- How tightly a sign holds its operand. -/
def signRank : Nat := 2

/-- Gives the operand `tree` to the open signs and operators that hold it at least as tightly as
`least`, the innermost first. -/
def reduce (least : Nat) (tree : ParseTree) : List Frame → ParseTree × List Frame
  | .sign sign :: stack =>
    if least ≤ signRank then reduce least (.signed sign tree) stack
    else (tree, .sign sign :: stack)
  | .left op operand :: stack =>
    if least ≤ rank op then reduce least (.binary op operand tree) stack
    else (tree, .left op operand :: stack)
  | stack => (tree, stack)

/-- An operator after the operand `tree`. A power leaves everything open: it holds tighter than all
that may stand to its left, and groups to the right. -/
def pushOperator (op : BinaryOp) (tree : ParseTree) (stack : List Frame) : State :=
  let (operand, open') := reduce (if op = .power then 4 else rank op) tree stack
  .operand false (.left op operand :: open')

/-- A closing parenthesis after the operand `tree`. -/
def close? (tree : ParseTree) (stack : List Frame) : Option State :=
  match reduce 0 tree stack with
  | (inner, .group :: open') => some (.operator (.group inner) open')
  | (last, .call function reversed :: open') =>
    some (.operator (.call function (reversed.reverse ++ [last])) open')
  | _ => none

/-- A comma after the operand `tree`, which only an argument list admits. -/
def nextArgument? (tree : ParseTree) (stack : List Frame) : Option State :=
  match reduce 0 tree stack with
  | (argument, .call function reversed :: open') =>
    some (.operand true (.call function (argument :: reversed) :: open'))
  | _ => none

/-- A token where an operand has to follow. An argument list that is still empty may be closed. -/
def operand? (fresh : Bool) (stack : List Frame) : Token → Option State
  | .number value => some (.operator (.number value) stack)
  | .name name => some (.named name stack)
  | .plus => some (.operand false (.sign .plus :: stack))
  | .minus => some (.operand false (.sign .minus :: stack))
  | .leftParen => some (.operand true (.group :: stack))
  | .rightParen =>
    match fresh, stack with
    | true, .call function [] :: open' => some (.operator (.call function []) open')
    | _, _ => none
  | _ => none

/-- A token after the operand `tree`. -/
def operator? (tree : ParseTree) (stack : List Frame) : Token → Option State
  | .power => some (pushOperator .power tree stack)
  | .times => some (pushOperator .times tree stack)
  | .divide => some (pushOperator .divide tree stack)
  | .plus => some (pushOperator .plus tree stack)
  | .minus => some (pushOperator .minus tree stack)
  | .rightParen => close? tree stack
  | .comma => nextArgument? tree stack
  | _ => none

/-- The state after one more token, unless the token cannot stand here. -/
def step? : State → Token → Option State
  | .operand fresh stack, token => operand? fresh stack token
  | .named name stack, .leftParen => some (.operand true (.call name [] :: stack))
  | .named name stack, token => operator? (.name name) stack token
  | .operator tree stack, token => operator? tree stack token

/-- The tree of an operand that ends the text: nothing may be open but signs and operators. -/
def finishOperand? (tree : ParseTree) (stack : List Frame) : Option ParseTree :=
  match reduce 0 tree stack with
  | (whole, []) => some whole
  | _ => none

/-- The tree of a text that ends in the given state. -/
def finish? : State → Option ParseTree
  | .operand _ _ => none
  | .named name stack => finishOperand? (.name name) stack
  | .operator tree stack => finishOperand? tree stack

def Frame.isParenthesis : Frame → Bool
  | .group => true
  | .call _ _ => true
  | _ => false

/-- What may follow an operand: outside all parentheses, also the end of the text. -/
def afterOperand (stack : List Frame) : Expected :=
  if stack.any Frame.isParenthesis then .operator else .operatorOrEnd

/-- What a state is waiting for. -/
def State.expected : State → Expected
  | .operand true _ => .expression
  | .operand false _ => .operand
  | .named _ stack => afterOperand stack
  | .operator _ stack => afterOperand stack

/-- Where and how a text goes wrong. -/
structure Failure where
  offset : Nat
  expected : Expected
  deriving Repr, DecidableEq, Inhabited

/-- Runs the parser over the tokens of a text of `length` characters. -/
def run (length : Nat) : State → List Lexeme → Except Failure ParseTree
  | state, [] =>
    match finish? state with
    | some tree => .ok tree
    | none => .error ⟨length, state.expected⟩
  | state, lexeme :: rest =>
    match step? state lexeme.token with
    | some next => run length next rest
    | none => .error ⟨lexeme.offset, state.expected⟩

end Parser

namespace ParseTree

/-- The parse tree of a text. -/
def parse (text : List Char) : Except Parser.Failure ParseTree :=
  Parser.run text.length Parser.start (lexemes 0 text)

end ParseTree

/-- The column of a position: one more than the number of characters since the last line feed. -/
def columnAt (text : List Char) (offset : Nat) : Nat :=
  (text.take offset).foldl (fun column c => if c = '\n' then 1 else column + 1) 1

/-- The greatest number of parentheses open at once in a text. A closing parenthesis too many counts
as nothing. -/
def nestingDepth (text : List Char) : Nat :=
  (text.foldl (fun (depth, deepest) c =>
    if c = '(' then (depth + 1, max deepest (depth + 1))
    else if c = ')' then (depth - 1, deepest)
    else (depth, deepest)) (0, 0)).2

/-- The parse tree of a text within the limits. Emptiness and nesting are judged without the blanks
around the text, and that is also how an unreadable text is quoted; the text itself is parsed with
them. -/
def ParseTree.ofText (text : String) : Except CompileError ParseTree :=
  let chars := text.toList
  let trimmed := Text.trim chars
  if trimmed = [] then .error .empty
  else if maxNesting < nestingDepth trimmed then .error .tooDeep
  else
    match ParseTree.parse chars with
    | .error failure =>
      .error (.unreadable (String.ofList trimmed) (columnAt chars failure.offset) failure.expected)
    | .ok tree => if maxNodes < tree.nodes then .error .tooComplex else .ok tree

/-- The expression that a text writes. -/
def Expr.ofText (text : String) : Except CompileError Expr :=
  (ParseTree.ofText text).map ParseTree.expr

end CurveArt
