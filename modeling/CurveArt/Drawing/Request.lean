import CurveArt.Settings.Basic

/-!
# What is drawn

A request holds everything that a picture needs: the points, one colour for whatever gets a colour
of its own, and the segments that are left out.
-/

namespace CurveArt

inductive Geometry where
  | pointSize (size : Float)
  | lineWidth (width : Float)
  deriving Repr, Inhabited

def Geometry.size : Geometry → Float
  | .pointSize size => size
  | .lineWidth width => width

structure Request where
  points : List Point
  colors : List Rgba
  style : DrawStyle
  geometry : Geometry
  background : Rgba
  /-- The segments that are not drawn, in order; none where there are no separate segments. -/
  breaks : List Nat
  deriving Repr, Inhabited

namespace Request

/-- Puts points together with a colour for each of them. A segment takes the colour of the point
where it begins, a path that of the first point. -/
def assemble (points : List Point) (colors : List Rgba) (breaks : List Nat) (s : Settings) :
    Request :=
  let style := s.style.drawStyle
  { points, style,
    background := s.backgroundColor,
    colors := match style with
      | .points => colors
      | .lines => colors.take (points.length - 1)
      | .connectedLine => colors.take 1,
    breaks := match style with
      | .lines => breaks.filter fun i => i + 1 < points.length
      | _ => [],
    geometry := match style with
      | .points => .pointSize s.pointSize
      | _ => .lineWidth s.lineWidth }

end Request

end CurveArt
