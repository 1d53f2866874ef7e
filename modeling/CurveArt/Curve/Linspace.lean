import CurveArt.Binary64.Decoding

/-!
# Inputs of a sweep

Values spread evenly over a range, with both ends; points of a square grid over a range, row by row;
and values spread over a full turn, without its end.
-/

namespace CurveArt.Curve

/-- `n` evenly spread values from `lo` to `hi`. Each is computed from its own part of the range, so
that errors do not add up. -/
def linspace (lo hi : Float) : Nat → List Float
  | 0 => []
  | 1 => [lo]
  | n =>
    let last := Binary64.ofCount (n - 1)
    (List.range n).map fun i => lo + (hi - lo) * (Binary64.ofCount i / last)

/-- The least number from `side` on whose square is at least `n`. -/
def sideFrom (n side : Nat) : Nat :=
  if n ≤ side * side then side else sideFrom n (side + 1)
termination_by n - side
decreasing_by
  have := Nat.le_mul_self side
  omega

/-- The side of the smallest square grid with at least `n` points, which is the exact root of `n`
rounded up. The root in doubles, rounded up, is the same below `2 ^ 40` (`measuredSide_eq`), and a
passing sample count is less than that. -/
def gridSide (n : Nat) : Nat :=
  sideFrom n 0

/-- The first `n` points of the square grid over the domain, row by row. -/
def gridInputs (lo hi : Float) (n : Nat) : List (List Float) :=
  let axis := linspace lo hi (gridSide n)
  (axis.flatMap fun x => axis.map fun y => [x, y]).take n

/-- A full turn. -/
def tau : Float := 6.283185307179586

/-- `n` evenly spread angles of a full turn, beginning with zero. -/
def turnInputs (n : Nat) : List (List Float) :=
  (List.range n).map fun i => [tau * Binary64.ofCount i / Binary64.ofCount n]

end CurveArt.Curve
