import CurveArt.Binary64.Hypotenuse
import CurveArt.Color.Basic
import CurveArt.Curve.Point

/-!
# Colouring points

Points get one colour each: all the same, along a gradient by their place in the sequence, or along
a gradient by their distance from the origin. The opacity is that of the drawing, whatever the
colours carried.
-/

namespace CurveArt

inductive ColorMode where
  | solid
  | linearGradient
  | radialGradient
  /-- One colour for all points, drawn from the run's seed. -/
  | random
  deriving Repr, DecidableEq, Inhabited

def ColorMode.all : List ColorMode :=
  [.solid, .linearGradient, .radialGradient, .random]

def ColorMode.name : ColorMode → String
  | .solid => "solid"
  | .linearGradient => "linear_gradient"
  | .radialGradient => "radial_gradient"
  | .random => "random"

/-- A colour mode with the colours that it uses. -/
inductive ColorScheme where
  | solid (color : Rgba)
  | linear (first last : Rgba)
  | radial (near far : Rgba)
  deriving Repr, Inhabited

namespace ColorScheme

/-- The scheme of a mode. Only the random mode draws. -/
def ofMode (mode : ColorMode) (color start finish : Rgba) (s : Random.Stream) : ColorScheme :=
  match mode with
  | .solid => .solid color
  | .linearGradient => .linear start finish
  | .radialGradient => .radial start finish
  | .random => .solid (Rgba.drawn s).1

/-- The places of `n` points in a sequence, spread over `[0, 1]`. -/
def linearPlaces (n : Nat) : List Float :=
  let last := Binary64.ofCount (max (n - 1) 1)
  (List.range n).map fun i => Binary64.ofCount i / last

/-- Keeps places finite where all points are equally far away. -/
def radialMargin : Float := 1e-10

/-- The distances of points from the origin, spread over `[0, 1)`. -/
def radialPlaces (points : List Point) : List Float :=
  let distances := points.map fun p => Binary64.hypot p.x p.y
  let nearest := distances.foldl Binary64.least Binary64.infinity
  let farthest := distances.foldl Binary64.greatest (-Binary64.infinity)
  distances.map fun d => (d - nearest) / (farthest - nearest + radialMargin)

/-- One colour for each point. -/
def colors (scheme : ColorScheme) (points : List Point) (opacity : Float) : List Rgba :=
  match scheme with
  | .solid color => List.replicate points.length (color.withOpacity opacity)
  | .linear first last =>
    (linearPlaces points.length).map fun t => (first.blend last t).withOpacity opacity
  | .radial near far =>
    (radialPlaces points).map fun t => (near.blend far t).withOpacity opacity

end ColorScheme

end CurveArt
