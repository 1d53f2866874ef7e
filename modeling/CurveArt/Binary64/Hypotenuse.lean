import CurveArt.Binary64.Decoding

/-!
# The length of a vector

`hypot x y` is `√(x² + y²)` to within a unit in the last place. The plain formula loses digits, and
its squares overflow or vanish where the length itself is an ordinary number; so the legs are first
scaled into a range where squares are safe, and one correction step then removes the error that the
rounded root carries.
-/

namespace CurveArt.Binary64

/-- A leg shorter than this part of the other does not change the rounded length. -/
def negligible : Float := Float.ofBits 0x3c90000000000000

/-- Above this the square of a leg may overflow. -/
def longLeg : Float := Float.ofBits 0x5fe0000000000000

/-- Below this the square of a leg may vanish. -/
def shortLeg : Float := Float.ofBits 0x2340000000000000

/-- The power of two that brings long legs down, and short legs up by division. -/
def scale : Float := Float.ofBits 0x1a70000000000000

/-- The length for legs `a ≥ b ≥ 0` whose squares are safe: a rounded root, corrected once by the
remainder that it leaves. The remainder is arranged so that its terms are exact or tiny. -/
def correctedLength (a b : Float) : Float :=
  let h := Float.sqrt (a * a + b * b)
  let (s, t) :=
    if h ≤ 2.0 * b then
      let δ := h - b
      (a * (2.0 * δ - a), (δ - 2.0 * (a - b)) * δ)
    else
      let δ := h - a
      (2.0 * δ * (a - 2.0 * b), (4.0 * δ - b) * b + δ * δ)
  h - (s + t) / (2.0 * h)

/-- The length of the vector `(x, y)`. An infinite leg makes it infinite, whatever the other is. -/
def hypot (x y : Float) : Float :=
  if x.isInf || y.isInf then
    1.0 / 0.0
  else if x.isNaN || y.isNaN then
    x + y
  else
    let a := if x.abs < y.abs then y.abs else x.abs
    let b := if x.abs < y.abs then x.abs else y.abs
    if a > longLeg then
      if b ≤ a * negligible then a + b
      else correctedLength (a * scale) (b * scale) / scale
    else if b < shortLeg then
      if a ≥ b / negligible then a + b
      else correctedLength (a / scale) (b / scale) * scale
    else if b ≤ a * negligible then a + b
    else correctedLength a b

end CurveArt.Binary64
