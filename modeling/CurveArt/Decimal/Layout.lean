import CurveArt.Decimal.Selection

/-!
# Writing doubles

A `NumberStyle` holds the decisions of one number format; `NumberStyle.render` is the same for all
of them. The four styles in use here are

* `plain`, for every number inside a message, a summary or a picture;
* `listed`, for the inputs that a trace record lists;
* `scientific`, one digit before the point and always an exponent;
* `stored`, for numbers in a settings file.
-/

namespace CurveArt

/-- The decisions of a number format that always writes the shortest digits that read back. -/
structure NumberStyle where
  /-- Which of two equally near shortest decimals is written. -/
  tie : Decimal.Tie
  /-- The exponents of the leading digit for which the number is written without exponent. -/
  positional : Int → Bool
  /-- Whether a whole number written without exponent ends in a point and a zero. -/
  wholePoint : Bool
  /-- Whether exponents that are not negative carry a plus sign. -/
  exponentPlus : Bool

namespace NumberStyle

/-- No exponent ever, no point on whole numbers. -/
def plain : NumberStyle where
  tie := .up
  positional _ := true
  wholePoint := false
  exponentPlus := false

/-- Whole numbers show a point, and numbers from `10^16` or below `10^-4` an exponent. -/
def listed : NumberStyle where
  tie := .up
  positional e := decide (-4 ≤ e) && decide (e < 16)
  wholePoint := true
  exponentPlus := false

/-- Always an exponent. -/
def scientific : NumberStyle where
  tie := .up
  positional _ := false
  wholePoint := false
  exponentPlus := false

/-- Whole numbers show a point, and numbers from `10^16` or below `10^-5` a signed exponent. -/
def stored : NumberStyle where
  tie := .toEven
  positional e := decide (-5 ≤ e) && decide (e < 16)
  wholePoint := true
  exponentPlus := true

end NumberStyle

namespace Decimal

/-- Digits written without exponent; `point` of them, or so many zeros more, stand before the
point. -/
def positionalText (wholePoint : Bool) (digits : List Char) (point : Int) : List Char :=
  if point ≤ 0 then
    '0' :: '.' :: List.replicate (-point).toNat '0' ++ digits
  else if digits.length ≤ point.toNat then
    digits ++ List.replicate (point.toNat - digits.length) '0' ++
      if wholePoint then ['.', '0'] else []
  else
    digits.take point.toNat ++ '.' :: digits.drop point.toNat

/-- One digit, a point where more digits follow, and the exponent of the first digit. -/
def scientificText (exponentPlus : Bool) (digits : List Char) (exponent : Int) : List Char :=
  let mantissa := match digits with
    | [] => []
    | [d] => [d]
    | d :: rest => d :: '.' :: rest
  let sign := if exponent < 0 then ['-'] else if exponentPlus then ['+'] else []
  mantissa ++ 'e' :: sign ++ Nat.toDigits 10 exponent.natAbs

/-- The decimal in the given style. -/
def render (style : NumberStyle) (d : Decimal) : List Char :=
  let digits := Nat.toDigits 10 d.digits
  let leading : Int := digits.length - 1 + d.exponent
  if style.positional leading then positionalText style.wholePoint digits (leading + 1)
  else scientificText style.exponentPlus digits leading

end Decimal

namespace NumberStyle

/-- The text of any double. The sign of zero is written, that of a value that is no number is
not. -/
def render (style : NumberStyle) (x : Float) : String :=
  match Binary64.decode x with
  | .notANumber => "NaN"
  | .infinite negative => if negative then "-inf" else "inf"
  | .finite negative m q =>
    let magnitude :=
      if m = 0 then Decimal.render style ⟨0, 0⟩
      else Decimal.render style (Decimal.shortest style.tie m q)
    String.ofList (if negative then '-' :: magnitude else magnitude)

end NumberStyle

/-- A double with exactly `count` significant digits, one of them before the point, and an
exponent. -/
def Decimal.significantText (count : Nat) (x : Float) : String :=
  match Binary64.decode x with
  | .finite negative m q =>
    let magnitude :=
      if m = 0 then Decimal.scientificText false (List.replicate count '0') 0
      else
        let d := Decimal.significant count m q
        let digits := Nat.toDigits 10 d.digits
        Decimal.scientificText false digits (digits.length - 1 + d.exponent)
    String.ofList (if negative then '-' :: magnitude else magnitude)
  | _ => NumberStyle.scientific.render x

/-- The text of a double in a message. -/
def plainText (x : Float) : String :=
  NumberStyle.plain.render x

end CurveArt
