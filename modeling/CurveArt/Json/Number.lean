import CurveArt.Json.Error
import CurveArt.Word

/-!
# Numbers in JSON

A whole number that fits 64 bits is kept as it is. Any other number is a double, found from at most
64 bits of its digits and one multiplication or division by a power of ten: digits that no longer
fit count as zeros before the point and as nothing behind it. The result is near the number written,
and exact for the texts that this library writes with few digits; a number beyond all doubles is
refused.
-/

namespace CurveArt.Json

inductive Number where
  | natural (value : Nat)
  /-- A negative whole number down to `-2^63`. -/
  | negative (magnitude : Nat)
  | float (value : Float)
  deriving Repr, Inhabited

def Number.found : Number → Found
  | .natural value => .natural value
  | .negative magnitude => .negative magnitude
  | .float value => .float value

/-- One more than the greatest significand. -/
def significandBound : Nat := Word.count 64

/-- Appends digits to a significand for as long as it fits, with the number of digits taken. -/
def takeDigits (significand taken : Nat) : List Char → Nat × Nat
  | [] => (significand, taken)
  | c :: rest =>
    let next := 10 * significand + (c.toNat - '0'.toNat)
    if next < significandBound then takeDigits next (taken + 1) rest else (significand, taken)

/-- The double `10^k`, for `k` up to 308. -/
def powerOfTen (k : Nat) : Float :=
  Float.ofScientific 1 false k

/-- The double `x · 10^exponent`, through one rounded operation where a single power of ten reaches
so far; small numbers first lose 308 places at a time. -/
def scaled? (x : Float) (exponent : Int) : Option Float :=
  if 308 < exponent then
    if x == 0.0 then some x else none
  else if 0 ≤ exponent then
    let y := x * powerOfTen exponent.toNat
    if y.isInf then none else some y
  else if -308 ≤ exponent then
    some (x / powerOfTen exponent.natAbs)
  else if x == 0.0 then some x
  else scaled? (x / powerOfTen 308) (exponent + 308)
termination_by exponent.natAbs
decreasing_by omega

/-- The greatest exponent that is read; a longer one stands for overflow or zero. -/
def maxExponent : Nat := 2147483647

/-- The double of a significand with its exponent so far and the exponent that is written behind
it. -/
def scaledBy? (significand : Nat) (base : Int) (negativeExponent : Bool) (exponent : Nat) :
    Option Float :=
  if maxExponent < exponent then
    if significand ≠ 0 ∧ !negativeExponent then none else some 0.0
  else
    scaled? significand.toUInt64.toFloat
      (if negativeExponent then base - exponent else base + exponent)

/-- What is written behind the digits: nothing, or a mark, perhaps a sign, and digits. A mark
without digits is malformed. -/
def splitExponent (text : List Char) : Except ReadError ((Bool × Nat) × List Char) :=
  match text with
  | c :: rest =>
    if c = 'e' ∨ c = 'E' then
      let (negative, afterSign) := match rest with
        | '-' :: tail => (true, tail)
        | '+' :: tail => (false, tail)
        | tail => (false, tail)
      let digits := afterSign.takeWhile Char.isDigit
      if digits = [] then .error .malformed
      else
        let value := digits.foldl (fun value d => 10 * value + (d.toNat - '0'.toNat)) 0
        .ok ((negative, value), afterSign.dropWhile Char.isDigit)
    else .ok ((false, 0), text)
  | [] => .ok ((false, 0), [])

/-- A number that is written with a point or an exponent, or has more whole digits than fit. -/
def floatNumber (negative : Bool) (significand : Nat) (base : Int) (text : List Char) :
    Except ReadError (Number × List Char) := do
  let ((negativeExponent, exponent), rest) ← splitExponent text
  match scaledBy? significand base negativeExponent exponent with
  | none => .error .malformed
  | some x => .ok (.float (if negative then -x else x), rest)

/-- Reads a number without its sign. A leading zero stands alone, and a point has digits on both
sides. -/
def readMagnitude (negative : Bool) (text : List Char) : Except ReadError (Number × List Char) :=
  let whole := text.takeWhile Char.isDigit
  let afterWhole := text.dropWhile Char.isDigit
  if whole = [] ∨ (whole.head? = some '0' ∧ whole ≠ ['0']) then .error .malformed
  else
    let (significand, taken) := takeDigits 0 0 whole
    let dropped := whole.length - taken
    match afterWhole with
    | '.' :: afterPoint =>
      let places := afterPoint.takeWhile Char.isDigit
      if places = [] then .error .malformed
      else
        let (significand, taken) := takeDigits significand 0 places
        floatNumber negative significand (dropped - taken : Int) (afterPoint.dropWhile Char.isDigit)
    | c :: _ =>
      if c = 'e' ∨ c = 'E' ∨ dropped ≠ 0 then floatNumber negative significand dropped afterWhole
      else .ok (wholeNumber negative significand, afterWhole)
    | [] =>
      if dropped ≠ 0 then floatNumber negative significand dropped []
      else .ok (wholeNumber negative significand, [])
where
  /-- A whole number of at most 64 bits. Below `-2^63`, and at negative zero, it is a double. -/
  wholeNumber (negative : Bool) (significand : Nat) : Number :=
    if !negative then .natural significand
    else if significand = 0 ∨ Word.count 63 < significand then
      .float (-significand.toUInt64.toFloat)
    else .negative significand

/-- Reads a number. -/
def readNumber (text : List Char) : Except ReadError (Number × List Char) :=
  match text with
  | '-' :: rest => readMagnitude true rest
  | text => readMagnitude false text

end CurveArt.Json
