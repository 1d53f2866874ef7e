import CurveArt.Decimal.Layout
import CurveArt.Formula.Vocabulary

/-!
# Why a formula has no value at a point
-/

namespace CurveArt

inductive EvalError where
  | unknownName (name : String)
  | unknownFunction (name : String)
  | wrongArity (function : Builtin) (found : Nat)
  | inputCount (expected found : Nat)
  | divisionByZero
  /-- The argument lies outside the domain of the function. -/
  | domain (function : RealFunction) (argument : Float)
  | nonReal
  | nonFinite
  deriving Repr, Inhabited

def EvalError.message : EvalError → String
  | .unknownName name => "name '" ++ name ++ "' is not defined"
  | .unknownFunction name => "function '" ++ name ++ "' is not defined"
  | .wrongArity function found =>
    function.name ++ "() takes " ++ toString function.arity ++ " argument(s) but " ++
      toString found ++ " were given"
  | .inputCount expected found =>
    "expected " ++ toString expected ++ " input(s), got " ++ toString found
  | .divisionByZero => "division by zero"
  | .domain function argument =>
    "math domain error: " ++ function.name ++ "(" ++ plainText argument ++ ")"
  | .nonReal => "result is not a real number"
  | .nonFinite => "numeric overflow"

end CurveArt
