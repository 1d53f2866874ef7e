import CurveArt.Curve.Point
import CurveArt.Random.Draw

/-!
# Transforming points

Points can be jittered, mirrored and rotated, always in this order.
-/

namespace CurveArt

structure Transform where
  /-- The width of the noise added to each coordinate. -/
  jitter : Float
  mirror : Bool
  rotationDegrees : Float
  deriving Repr, Inhabited

namespace Transform

/-- The transformation that leaves points alone. -/
def none : Transform :=
  ⟨0.0, false, 0.0⟩

/-- Adds noise from `[-half, half)` to every coordinate, the first one of a point before the second;
`done` holds the points that have their noise, the last one first. -/
def jitterWith (half : Float) (done : List Point) :
    List Point → Random.Stream → Except Random.DrawError (List Point × Random.Stream)
  | [], s => .ok (done.reverse, s)
  | p :: rest, s =>
    match s.between (-half) half with
    | (.error e, _) => .error e
    | (.ok dx, s) =>
      match s.between (-half) half with
      | (.error e, _) => .error e
      | (.ok dy, s) => jitterWith half (⟨p.x + dx, p.y + dy⟩ :: done) rest s

/-- Jitters points by noise of the given width. Nothing is drawn for a width that is not positive.
-/
def jittered (width : Float) (points : List Point) (s : Random.Stream) :
    Except Random.DrawError (List Point × Random.Stream) :=
  if width ≤ 0.0 then .ok (points, s) else jitterWith (width / 2.0) [] points s

/-- Points followed by their reflections. -/
def mirrored (points : List Point) : List Point :=
  points ++ points.map Point.reflected

/-- A degree in radians. -/
def degree : Float := 3.141592653589793 / 180.0

/-- Points turned counter-clockwise around the origin. No turn at all is exact. -/
def rotated (degrees : Float) (points : List Point) : List Point :=
  if degrees == 0.0 then points
  else
    let angle := degrees * degree
    let sin := angle.sin
    let cos := angle.cos
    points.map fun p => ⟨p.x * cos - p.y * sin, p.x * sin + p.y * cos⟩

/-- Applies all three. -/
def apply (t : Transform) (points : List Point) (s : Random.Stream) :
    Except Random.DrawError (List Point × Random.Stream) :=
  match jittered t.jitter points s with
  | .error e => .error e
  | .ok (noisy, s) =>
    .ok (rotated t.rotationDegrees (if t.mirror then mirrored noisy else noisy), s)

end Transform

end CurveArt
