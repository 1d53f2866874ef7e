import CurveArt.Binary64.Decoding

/-!
# Rounding a double to a whole number

The four directions in which a fraction can be dropped differ only in one decision: does the
magnitude go up by one? `Direction.bumps` makes that decision from the exact remainder; the rest is
shared. `toIntegral` gives the whole number back as a double and keeps the sign of zero, so that
rounding `-0.3` to the nearest whole number gives `-0.0`; `clampedWhole` holds the whole part inside
bounds.
-/

namespace CurveArt.Binary64

/-- Ways of dropping a fraction. `nearest` sends a half away from zero. -/
inductive Direction where
  | down
  | up
  | towardZero
  | nearest
  deriving Repr, DecidableEq, Inhabited

/-- Whether dropping the fraction `rest / unit` of a value of the given sign moves its magnitude to
the next whole number. -/
def Direction.bumps (direction : Direction) (negative : Bool) (rest unit : Nat) : Bool :=
  match direction with
  | .down => negative && rest != 0
  | .up => !negative && rest != 0
  | .towardZero => false
  | .nearest => decide (unit ≤ 2 * rest)

/-- The magnitude `significand · 2^exponent` without its fraction. -/
def wholeMagnitude (direction : Direction) (negative : Bool) (significand : Nat)
    (exponent : Int) : Nat :=
  if 0 ≤ exponent then
    significand * Nat.pow 2 exponent.toNat
  else
    let unit := Nat.pow 2 (-exponent).toNat
    let rest := significand % unit
    significand / unit + if direction.bumps negative rest unit then 1 else 0

/-- The double next to `x` in the given direction that is a whole number. Doubles with a
non-negative exponent are whole already, and so are the infinities. -/
def toIntegral (direction : Direction) (x : Float) : Float :=
  match decode x with
  | .finite negative significand exponent =>
    if 0 ≤ exponent then x
    else
      let magnitude := ofCount (wholeMagnitude direction negative significand exponent)
      if negative then -magnitude else magnitude
  | _ => x

def floor : Float → Float := toIntegral .down

def ceil : Float → Float := toIntegral .up

def truncate : Float → Float := toIntegral .towardZero

/-- The nearest whole number, a half going away from zero. -/
def round : Float → Float := toIntegral .nearest

/-- What dropping the whole part leaves, with the sign of `x`. -/
def fraction (x : Float) : Float :=
  x - truncate x

/-- The whole part of `x`, held inside the given bounds: infinities land on a bound, and a value
that is not a number counts as zero. -/
def clampedWhole (least greatest : Int) (x : Float) : Int :=
  match decode x with
  | .notANumber => 0
  | .infinite negative => if negative then least else greatest
  | .finite negative significand exponent =>
    let magnitude : Int := wholeMagnitude .towardZero negative significand exponent
    max least (min greatest (if negative then -magnitude else magnitude))

end CurveArt.Binary64
