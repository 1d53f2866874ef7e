import CurveArt.Drawing.Request
import CurveArt.Word

/-!
# Figures

A figure is a request with the part of the plane that is shown. How many pixels it gets depends on
the resolution; `pixel` says where a coordinate falls.
-/

namespace CurveArt

inductive RenderError where
  | invalidDpi (dpi : Nat)
  | invalidSize (width height : Nat)
  | unknownFormat (name : String)
  deriving Repr, DecidableEq, Inhabited

/-- The bounds of the resolution. -/
def minDpi : Nat := 10

def maxDpi : Nat := 1200

/-- The resolution at which sizes are given in pixels. -/
def baseDpi : Float := 100.0

/-- The greatest width and height of a picture in pixels. -/
def maxSidePixels : Nat := 16384

def RenderError.message : RenderError → String
  | .invalidDpi dpi =>
    "dpi " ++ toString dpi ++ " is outside " ++ toString minDpi ++ "..=" ++ toString maxDpi
  | .invalidSize width height =>
    "image size " ++ toString width ++ "x" ++ toString height ++ " px cannot be drawn"
  | .unknownFormat name => "unknown export format '" ++ name ++ "' (expected png or svg)"

structure Figure where
  request : Request
  xRange : Float × Float
  yRange : Float × Float
  /-- Width and height in inches. -/
  size : Float × Float
  deriving Repr, Inhabited

namespace Figure

/-! ## The part of the plane that is shown -/

/-- The least and the greatest of the values, an empty list having them the wrong way round. -/
def extent (values : List Float) : Float × Float :=
  (values.foldl Binary64.least Binary64.infinity,
    values.foldl Binary64.greatest (-Binary64.infinity))

/-- The part of a range that is added on each side. -/
def padding : Float := 0.04

/-- The distance from one to the next double. -/
def unitSpacing : Float := 2.220446049250313e-16

/-- A range with some space on either side. Values that hardly differ get one unit on either side,
and without any values the range is that around zero. -/
def padded (lo hi : Float) : Float × Float :=
  if !lo.isFinite || !hi.isFinite then (-1.0, 1.0)
  else if hi - lo ≤ unitSpacing * Binary64.greatest hi.abs 1.0 then (lo - 1.0, hi + 1.0)
  else
    let pad := (hi - lo) * padding
    (lo - pad, hi + pad)

/-- The ranges shown of both axes. Points that are not finite do not count. -/
def view (points : List Point) : (Float × Float) × (Float × Float) :=
  let shown := points.filter Point.isFinite
  let (xLo, xHi) := extent (shown.map Point.x)
  let (yLo, yHi) := extent (shown.map Point.y)
  (padded xLo xHi, padded yLo yHi)

/-- The figure of a request. -/
def ofRequest (request : Request) (size : Float × Float) : Figure :=
  let (xRange, yRange) := view request.points
  ⟨request, xRange, yRange, size⟩

/-! ## Pixels -/

/-- Width and height in pixels at a resolution. -/
def pixelSize (f : Figure) (dpi : Nat) : Except RenderError (Nat × Nat) :=
  if dpi < minDpi ∨ maxDpi < dpi then .error (.invalidDpi dpi)
  else
    let side (inches : Float) := Binary64.round (inches * Binary64.ofCount dpi)
    let width := side f.size.1
    let height := side f.size.2
    let fits := Binary64.within 1.0 (Binary64.ofCount maxSidePixels)
    let pixels (x : Float) := (Binary64.clampedWhole 0 (Word.count 32 - 1) x).toNat
    if fits width && fits height then .ok (pixels width, pixels height)
    else .error (.invalidSize (pixels width) (pixels height))

/-- A number of pixels as a signed word of 32 bits, without its fraction. -/
def wordOf (x : Float) : Int :=
  Binary64.clampedWhole Word.least32 Word.greatest32 x

/-- A pixel so many pixels after another one. Pixels are counted in words of 32 bits, so the count
starts again from the other end where it leaves them. -/
def advanced (pixel count : Int) : Int :=
  (pixel + count).bmod (Word.count 32)

/-- The pixel of a value, where the range is drawn from pixel `first` to pixel `last`. A margin of a
thousandth of a pixel keeps values that are whole but for rounding from falling short. -/
def pixel (range : Float × Float) (first last : Int) (value : Float) : Int :=
  let length := last - first
  if range.1 == range.2 then Int.tdiv length 2
  else
    let place := (value - range.1) / (range.2 - range.1)
    if length = 0 then last
    else if place.isInf then
      if Binary64.isNegative place then first else last
    else
      let along := Float.ofInt length * place
      if 0 < length then advanced first (wordOf (Binary64.floor (along + 1e-3)))
      else advanced first (wordOf (Binary64.ceil (along - 1e-3)))

/-- A pixel coordinate moved to the nearest edge where it lies beyond one. The far edge counts as
part of the picture. -/
def insideEdges (size : Nat) (pixel : Int) : Int :=
  max 0 (min size pixel)

/-- The pixel of a point in a picture of the given size; rows are counted from the top. A point
beside the view is moved to its edge. -/
def pixelOf (f : Figure) (width height : Nat) (p : Point) : Int × Int :=
  (insideEdges width (pixel f.xRange 0 (width - 1) p.x),
    insideEdges height (pixel f.yRange (height - 1) 0 p.y))

/-- The radius of a dot or the width of a line in pixels, at least one. -/
def strokePixels (f : Figure) (dpi : Nat) : Float :=
  Binary64.greatest
    (Binary64.round (f.request.geometry.size * (Binary64.ofCount dpi / baseDpi))) 1.0

end Figure

end CurveArt
