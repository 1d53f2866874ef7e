/-!
# Least, greatest and clamped doubles

Comparisons with a value that is not a number are false, so each function here says what it does
with one: `least` and `greatest` ignore it, `clamp` hands it back.
-/

namespace CurveArt.Binary64

/-- Infinity, the neutral start of a search for the least value. -/
def infinity : Float := 1.0 / 0.0

/-- The smaller of two doubles; a value that is not a number gives way to the other one. -/
def least (a b : Float) : Float :=
  if a.isNaN then b
  else if b.isNaN then a
  else if b < a then b
  else a

/-- The greater of two doubles; a value that is not a number gives way to the other one. -/
def greatest (a b : Float) : Float :=
  if a.isNaN then b
  else if b.isNaN then a
  else if a < b then b
  else a

/-- Moves `x` into `[lo, hi]`; a value that is not a number stays one. -/
def clamp (lo hi x : Float) : Float :=
  if x < lo then lo
  else if hi < x then hi
  else x

/-- Whether `lo ≤ x ≤ hi`. No value that is not a number lies in a range. -/
def within (lo hi x : Float) : Bool :=
  decide (lo ≤ x) && decide (x ≤ hi)

end CurveArt.Binary64
