/-!
# Reading decimal text

The value of a decimal text is the double nearest to the number it writes, however many digits it
has. `scanNumber?` splits the longest unsigned number off the front of a text; `number?` reads a
whole text, with a sign, and knows the names of infinity and of the value that is not a number.

Main statements: `scanNumber?_text` (nothing is lost or invented in a scan) and
`scanNumber?_ne_nil` (a scan that succeeds takes at least one character).
-/

namespace CurveArt.Decimal

/-- The number that a run of decimal digits writes. -/
def digitsValue (digits : List Char) : Nat :=
  digits.foldl (fun value c => 10 * value + (c.toNat - '0'.toNat)) 0

/-- The double nearest to `coefficient · 10^exponent`, for a coefficient of the given number of
digits. Numbers beyond all doubles, or so near to zero that nothing is left, are settled by their
size before any power is formed. -/
def nearestDouble (coefficient length : Nat) (exponent : Int) : Float :=
  if coefficient = 0 then 0.0
  else if length + exponent < -400 then 0.0
  else if 400 < exponent then 1.0 / 0.0
  else Float.ofScientific coefficient (decide (exponent < 0)) exponent.natAbs

/-- An unsigned number as it is written. -/
structure Written where
  whole : List Char
  /-- The point between the whole part and the places, or nothing. -/
  point : List Char
  places : List Char
  /-- The exponent with its mark and sign, or nothing. -/
  exponentText : List Char
  exponent : Int

/-- The characters of a written number, in order. -/
def Written.text (w : Written) : List Char :=
  w.whole ++ w.point ++ w.places ++ w.exponentText

/-- The double nearest to a written number. -/
def Written.value (w : Written) : Float :=
  nearestDouble (digitsValue (w.whole ++ w.places)) (w.whole ++ w.places).length
    (w.exponent - w.places.length)

/-- Splits the first character off a text where it passes the test. -/
def splitOne (test : Char → Bool) : List Char → List Char × List Char
  | [] => ([], [])
  | c :: rest => if test c then ([c], rest) else ([], c :: rest)

@[simp] theorem splitOne_append (test : Char → Bool) (text : List Char) :
    (splitOne test text).1 ++ (splitOne test text).2 = text := by
  cases text with
  | nil => rfl
  | cons c rest => by_cases h : test c <;> simp [splitOne, h]

/-- Splits off an exponent: a mark, perhaps a sign, and digits. A mark without digits belongs to
what follows the number. -/
def scanExponent (text : List Char) : List Char × Int × List Char :=
  let (mark, afterMark) := splitOne (fun c => c == 'e' || c == 'E') text
  let (sign, afterSign) := splitOne (fun c => c == '+' || c == '-') afterMark
  let digits := afterSign.takeWhile Char.isDigit
  if mark = [] ∨ digits = [] then ([], 0, text)
  else
    let magnitude : Int := digitsValue digits
    (mark ++ sign ++ digits, if sign = ['-'] then -magnitude else magnitude,
      afterSign.dropWhile Char.isDigit)

/-- Splits the longest unsigned number off the front of a text: digits with an optional point among
or beside them, and an optional exponent. -/
def scanNumber? (text : List Char) : Option (Written × List Char) :=
  let whole := text.takeWhile Char.isDigit
  let (point, afterPoint) := splitOne (· == '.') (text.dropWhile Char.isDigit)
  let isPlace := fun c : Char => c.isDigit && point != []
  let places := afterPoint.takeWhile isPlace
  if whole = [] ∧ places = [] then none
  else
    let (exponentText, exponent, rest) := scanExponent (afterPoint.dropWhile isPlace)
    some (⟨whole, point, places, exponentText, exponent⟩, rest)

theorem scanExponent_text (text : List Char) :
    (scanExponent text).1 ++ (scanExponent text).2.2 = text := by
  simp only [scanExponent]
  split
  · rfl
  · simp only [List.append_assoc, List.takeWhile_append_dropWhile, splitOne_append]

/-- The written number and the rest make up the text. -/
theorem scanNumber?_text {text rest : List Char} {w : Written}
    (h : scanNumber? text = some (w, rest)) : w.text ++ rest = text := by
  simp only [scanNumber?] at h
  split at h
  · cases h
  · obtain ⟨rfl, rfl⟩ := Prod.mk.inj (Option.some.inj h)
    simp only [Written.text, List.append_assoc, scanExponent_text,
      List.takeWhile_append_dropWhile, splitOne_append]

/-- A written number has at least one character. -/
theorem scanNumber?_ne_nil {text rest : List Char} {w : Written}
    (h : scanNumber? text = some (w, rest)) : w.text ≠ [] := by
  simp only [scanNumber?] at h
  split at h
  · cases h
  · rename_i hdigits
    obtain ⟨rfl, rfl⟩ := Prod.mk.inj (Option.some.inj h)
    intro hnil
    simp only [Written.text, List.append_eq_nil_iff] at hnil
    exact hdigits ⟨hnil.1.1.1, hnil.1.2⟩

/-- Reads a text that is an unsigned number from end to end. -/
def unsignedNumber? (text : List Char) : Option Float :=
  match scanNumber? text with
  | some (w, []) => some w.value
  | _ => none

/-- Reads a double: a signed number, or one of the names `inf`, `infinity` and `nan` in any case. -/
def number? (text : List Char) : Option Float :=
  let (negative, magnitude) := match text with
    | '-' :: rest => (true, rest)
    | '+' :: rest => (false, rest)
    | rest => (false, rest)
  let name := String.ofList (magnitude.map Char.toLower)
  let value :=
    if name = "inf" ∨ name = "infinity" then some (1.0 / 0.0)
    else if name = "nan" then some (0.0 / 0.0)
    else unsignedNumber? magnitude
  value.map fun x => if negative then -x else x

end CurveArt.Decimal
