/-!
# Doubles as scaled integers

A finite double is `± m · 2^q` with natural `m < 2^53`. Everything in this library that must be
exact on doubles (rounding to whole numbers, choosing decimal digits) is decided on `m` and `q` in
exact integer arithmetic, never on rounded intermediate values. `decode` is the only place where
the bit layout of a double is known.
-/

namespace CurveArt.Binary64

/-- A double taken apart: not a number, an infinity, or the value `± significand · 2^exponent`. -/
inductive Parts where
  | notANumber
  | infinite (negative : Bool)
  | finite (negative : Bool) (significand : Nat) (exponent : Int)
  deriving Repr, DecidableEq, Inhabited

/-- The field of exponent bits that marks infinities and values that are not numbers. -/
def specialField : Nat := 2047

/-- The leading bit of a significand, which is not stored. -/
def hiddenBit : Nat := 4503599627370496

/-- Takes the sign bit, the eleven exponent bits and the fifty-two fraction bits apart. Values with
exponent field zero have no hidden leading bit. -/
def decode (x : Float) : Parts :=
  let bits := x.toBits
  let negative := bits >>> 63 == 1
  let field := ((bits >>> 52) &&& 0x7ff).toNat
  let fraction := (bits &&& 0xfffffffffffff).toNat
  if field = specialField then
    if fraction = 0 then .infinite negative else .notANumber
  else if field = 0 then
    .finite negative fraction (-1074)
  else
    .finite negative (hiddenBit + fraction) (field - 1075)

/-- True of the doubles whose sign bit is set, negative zero included. -/
def isNegative (x : Float) : Bool :=
  x.toBits >>> 63 == 1

/-- The double nearest to a count, exact below `2^53`. Counts here stay below `2^64`. -/
def ofCount (n : Nat) : Float :=
  n.toUInt64.toFloat

end CurveArt.Binary64
