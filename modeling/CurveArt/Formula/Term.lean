import CurveArt.Binary64.Integral
import CurveArt.Expr.Basic
import CurveArt.Formula.Error
import CurveArt.Random.Draw

/-!
# Resolved formulas

A `Term n` is an expression over `n` inputs whose names have been looked up: a variable is the
number of its input, a constant its value, a call its function. A name or function outside the
vocabulary, and a call with the wrong number of arguments, become leaves that fail when they are
reached; the arguments of such calls are gone, so nothing in them is ever evaluated.

Evaluation runs from left to right and stops at the first failure. Every value on the way has to be
finite, and `random` is the only leaf that takes words from the stream.
-/

namespace CurveArt

inductive Term (n : Nat) where
  | constant (value : Float)
  | variable (slot : Fin n)
  | random
  | unknownName (name : String)
  | unknownFunction (name : String)
  | wrongArity (function : Builtin) (found : Nat)
  | apply (function : RealFunction) (argument : Term n)
  | negate (operand : Term n)
  | binary (op : BinaryOp) (left right : Term n)
  deriving Inhabited

namespace Term

/-! ## Looking names up -/

/-- The place of a name in a list of names: the first one, if there are several. -/
def slot? (name : String) : (names : List String) → Option (Fin names.length)
  | [] => none
  | first :: rest => if first = name then some 0 else (slot? name rest).map Fin.succ

/-- A name is a variable if one is declared so, then a constant, with or without the qualifier. -/
def ofName (vars : List String) (name : String) : Term vars.length :=
  match slot? name vars with
  | some slot => .variable slot
  | none =>
    match constant? (unqualified name) with
    | some value => .constant value
    | none => .unknownName name

/-- The term of an expression. A plus sign leaves no trace. -/
def resolve (vars : List String) : Expr → Term vars.length
  | .number value => .constant value
  | .name word => ofName vars word
  | .call function arguments =>
    match Builtin.ofName? (unqualified function), arguments with
    | none, _ => .unknownFunction function
    | some .random, [] => .random
    | some (.real f), [argument] => .apply f (resolve vars argument)
    | some builtin, arguments => .wrongArity builtin arguments.length
  | .signed .plus operand => resolve vars operand
  | .signed .minus operand => .negate (resolve vars operand)
  | .binary op left right => .binary op (resolve vars left) (resolve vars right)

/-! ## Evaluation -/

/-- Refuses values that are not finite. -/
def checkFinite (x : Float) : Except EvalError Float :=
  if x.isNaN then .error .nonReal
  else if x.isInf then .error .nonFinite
  else .ok x

/-- Logarithms of numbers that are not positive and roots of negative numbers are refused. -/
def applyFunction (f : RealFunction) (x : Float) : Except EvalError Float :=
  match f with
  | .sin => .ok x.sin
  | .cos => .ok x.cos
  | .tan => .ok x.tan
  | .exp => .ok x.exp
  | .log => if x ≤ 0.0 then .error (.domain .log x) else .ok x.log
  | .sqrt => if x < 0.0 then .error (.domain .sqrt x) else .ok x.sqrt
  | .abs => .ok x.abs

/-- A power. Zero has no negative powers, and a negative base only whole ones. -/
def power (base exponent : Float) : Except EvalError Float :=
  if base == 0.0 && exponent < 0.0 then .error .divisionByZero
  else if base < 0.0 && Binary64.fraction exponent != 0.0 then .error .nonReal
  else .ok (base.pow exponent)

def applyOp (op : BinaryOp) (a b : Float) : Except EvalError Float :=
  match op with
  | .plus => .ok (a + b)
  | .minus => .ok (a - b)
  | .times => .ok (a * b)
  | .divide => if b == 0.0 then .error .divisionByZero else .ok (a / b)
  | .power => power a b

/-- The value of a term at the given inputs, with the stream that is left: what was drawn before a
failure stays drawn. -/
def eval {n : Nat} (inputs : Fin n → Float) :
    Term n → Random.Stream → Except EvalError Float × Random.Stream
  | .constant value, s => (checkFinite value, s)
  | .variable slot, s => (checkFinite (inputs slot), s)
  | .random, s =>
    let (value, s) := s.unit
    (checkFinite value, s)
  | .unknownName name, s => (.error (.unknownName name), s)
  | .unknownFunction name, s => (.error (.unknownFunction name), s)
  | .wrongArity function found, s => (.error (.wrongArity function found), s)
  | .apply f argument, s =>
    match eval inputs argument s with
    | (.error e, s) => (.error e, s)
    | (.ok x, s) => ((applyFunction f x).bind checkFinite, s)
  | .negate operand, s =>
    match eval inputs operand s with
    | (.error e, s) => (.error e, s)
    | (.ok x, s) => (checkFinite (-x), s)
  | .binary op left right, s =>
    match eval inputs left s with
    | (.error e, s) => (.error e, s)
    | (.ok a, s) =>
      match eval inputs right s with
      | (.error e, s) => (.error e, s)
      | (.ok b, s) => ((applyOp op a b).bind checkFinite, s)

end Term

end CurveArt
