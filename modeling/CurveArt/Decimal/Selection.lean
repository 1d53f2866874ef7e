import CurveArt.Binary64.Decoding

/-!
# Choosing decimal digits for a double

A positive double `m · 2^q` is a real number with a finite decimal expansion that is usually far too
long to print. Two selections are made here in exact integer arithmetic.

* `Decimal.shortest`: the coarsest decimal grid that still has a point among the reals which read
  back to the same double, and on it the point nearest to the double.
* `Decimal.significant`: the double itself, rounded to a fixed number of significant digits.

Which way an exact tie goes is a parameter, because formats differ in it.
-/

namespace CurveArt

/-- The natural number `digits · 10^exponent`, or a decimal fraction where the exponent is
negative. -/
structure Decimal where
  digits : Nat
  exponent : Int
  deriving Repr, DecidableEq, Inhabited

namespace Decimal

/-- What becomes of a value half way between two candidates. -/
inductive Tie where
  | toEven
  | up
  deriving Repr, DecidableEq, Inhabited

/-- Whether a value half way above the candidate `low` goes on to `low + 1`. -/
def Tie.goesUp (tie : Tie) (low : Nat) : Bool :=
  match tie with
  | .toEven => low % 2 == 1
  | .up => true

/-- `numerator / denominator` rounded to the nearest natural number. -/
def roundQuotient (tie : Tie) (numerator denominator : Nat) : Nat :=
  let low := numerator / denominator
  let rest := 2 * (numerator % denominator)
  if rest < denominator then low
  else if rest = denominator then
    if tie.goesUp low then low + 1 else low
  else low + 1

/-! ## The decimal grid -/

/-- The number `a · 2^q`, counted in steps of `10^k`, as a fraction of natural numbers. -/
def onGrid (a : Nat) (q k : Int) : Nat × Nat :=
  (a * Nat.pow 2 q.toNat * Nat.pow 10 (-k).toNat, Nat.pow 2 (-q).toNat * Nat.pow 10 k.toNat)

/-- The exponent of the leading decimal digit of `a · 2^q`, for positive `a`. The logarithm of the
power of two just below comes from a fixed-point constant that is exact over the range of doubles;
one comparison then decides whether the next power of ten is reached. -/
def leadingExponent (a : Nat) (q : Int) : Int :=
  let estimate := ((Nat.log2 a + q) * 78913).fdiv 262144
  let (numerator, denominator) := onGrid a q (estimate + 1)
  if denominator ≤ numerator then estimate + 1 else estimate

/-! ## The fewest digits that read back -/

/-- The reals that round to `m · 2^q`, as bounds in units of `2^(q-2)`, with a flag that says
whether the bounds themselves belong. Below a power of two the doubles lie twice as close. -/
def readBackInterval (m : Nat) (q : Int) : Nat × Nat × Bool :=
  let below := if m = Binary64.hiddenBit ∧ -1074 < q then 1 else 2
  (4 * m - below, 4 * m + 2, m % 2 == 0)

/-- Moves to coarser grids, ten steps to one, for as long as some multiple of the grid's step stays
between the bounds. -/
def coarsen : Nat → Nat → Nat → Int → Int
  | 0, _, _, k => k
  | fuel + 1, low, high, k =>
    let low' := (low + 9) / 10
    let high' := high / 10
    if low' ≤ high' then coarsen fuel low' high' (k + 1) else k

/-- The shortest decimal that reads back to the double `m · 2^q`, for positive `m`. Seventeen digits
always suffice, so the search starts on the grid of the seventeenth. -/
def shortest (tie : Tie) (m : Nat) (q : Int) : Decimal :=
  let (low, high, closed) := readBackInterval m q
  let finest := leadingExponent m q - 16
  let bounds (k : Int) : Nat × Nat :=
    let (lowNum, lowDen) := onGrid low (q - 2) k
    let (highNum, highDen) := onGrid high (q - 2) k
    if closed then ((lowNum + lowDen - 1) / lowDen, highNum / highDen)
    else (lowNum / lowDen + 1, (highNum - 1) / highDen)
  let k := let (low', high') := bounds finest; coarsen 20 low' high' finest
  let (low', high') := bounds k
  let (numerator, denominator) := onGrid m q k
  let nearest := roundQuotient tie numerator denominator
  ⟨max low' (min high' nearest), k⟩

/-! ## A fixed number of digits -/

/-- The double `m · 2^q` rounded to `count` significant digits, ties going to the even digit; `m`
and `count` are positive. -/
def significant (count : Nat) (m : Nat) (q : Int) : Decimal :=
  let k := leadingExponent m q - (count - 1 : Nat)
  let (numerator, denominator) := onGrid m q k
  let digits := roundQuotient .toEven numerator denominator
  if digits = Nat.pow 10 count then ⟨digits / 10, k + 1⟩ else ⟨digits, k⟩

end Decimal

end CurveArt
