import CurveArt.Expr.Parser
import CurveArt.Formula.Term

/-!
# Formulas

A formula is the text of an expression together with its resolved term, the names of its variables
and a random stream of its own. Calling it gives a value or an error, and the formula with the
stream that is left; two formulas never share a stream, so neither sees what the other draws.
-/

namespace CurveArt

structure Formula where
  /-- The text, without the blanks around it. -/
  source : String
  vars : List String
  body : Term vars.length
  stream : Random.Stream

namespace Formula

/-- Whether a text has the form of a name without points. -/
def isPlainName (name : String) : Bool :=
  match name.toList with
  | [] => false
  | c :: rest => Token.startsName c && rest.all Token.continuesName

/-- Whether a name belongs to the vocabulary. -/
def isReserved (name : String) : Bool :=
  (Builtin.ofName? name).isSome || (constant? name).isSome

/-- The first name in the list that cannot be declared: one that is no plain name, one of the
vocabulary, or one that has been declared before. -/
def badVariable? (declared : List String) : List String → Option String
  | [] => none
  | name :: rest =>
    if !isPlainName name || isReserved name || declared.contains name then some name
    else badVariable? (name :: declared) rest

/-- Compiles a text over the given variables. The variables are looked at before the text. -/
def compile (text : String) (vars : List String) (stream : Random.Stream) :
    Except CompileError Formula :=
  match badVariable? [] vars with
  | some name => .error (.invalidVariable name)
  | none =>
    match Expr.ofText text with
    | .error e => .error e
    | .ok expr => .ok ⟨Text.trimmed text, vars, Term.resolve vars expr, stream⟩

/-- The number of inputs. -/
def arity (f : Formula) : Nat :=
  f.vars.length

/-- The value at the given inputs, one for each variable in their order, and the formula afterwards.
A wrong number of inputs draws nothing. -/
def call (f : Formula) (inputs : List Float) : Except EvalError Float × Formula :=
  if h : inputs.length = f.vars.length then
    let (result, stream) := f.body.eval (fun slot => inputs.get (slot.cast h.symm)) f.stream
    (result, { f with stream })
  else
    (.error (.inputCount f.vars.length inputs.length), f)

end Formula

end CurveArt
