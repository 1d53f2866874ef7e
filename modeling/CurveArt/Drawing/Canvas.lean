import CurveArt.Drawing.Svg

/-!
# Raster pictures

A canvas holds three bytes for each pixel, row by row from the top. Colours are laid over what is
there already in the measure of their opacity; an element is painted at most once at any pixel.
-/

namespace CurveArt

structure Canvas where
  width : Nat
  height : Nat
  bytes : ByteArray

namespace Canvas

/-- A black canvas. -/
def blank (width height : Nat) : Canvas :=
  ⟨width, height, ⟨Array.replicate (3 * width * height) 0⟩⟩

/-- A channel laid over another one. -/
def covered (opacity : Float) (above below : UInt8) : UInt8 :=
  let blended := opacity * above.toFloat + (1.0 - opacity) * below.toFloat
  (Binary64.clampedWhole 0 255 (Binary64.round blended)).toNat.toUInt8

/-- Lays a channel over the byte at an index. -/
def layByte (bytes : ByteArray) (opacity : Float) (channel : Nat) (index : Nat) : ByteArray :=
  if h : index < bytes.size then
    bytes.set index (covered opacity channel.toUInt8 (bytes.get index h)) h
  else bytes

/-- Lays a colour over a pixel. Pixels beside the canvas are left alone. -/
def lay (canvas : Canvas) (c : Rgba) (pixel : Int × Int) : Canvas :=
  if 0 ≤ pixel.1 ∧ pixel.1 < canvas.width ∧ 0 ≤ pixel.2 ∧ pixel.2 < canvas.height then
    let index := 3 * (pixel.2.toNat * canvas.width + pixel.1.toNat)
    let lain := (c.bytes.take 3).zipIdx.foldl
      (fun bytes (channel, i) => layByte bytes (Svg.opacityOf c) channel (index + i)) canvas.bytes
    { canvas with bytes := lain }
  else canvas

/-- Lays a colour over each of the pixels. -/
def layAll (canvas : Canvas) (c : Rgba) (pixels : List (Int × Int)) : Canvas :=
  pixels.foldl (fun canvas pixel => canvas.lay c pixel) canvas

/-! ## Shapes -/

/-- The whole numbers from `first` on, so many of them. -/
def run (first : Int) (count : Nat) : List Int :=
  (List.range count).map fun i : Nat => first + i

/-- The pixels of a picture. -/
def sheet (width height : Nat) : List (Int × Int) :=
  (run 0 height).flatMap fun y => (run 0 width).map fun x => (x, y)

/-- The pixels of a dot: those whose distance from the centre is at most the radius. -/
def disc (radius : Nat) (center : Int × Int) : List (Int × Int) :=
  let offsets := run (-(radius : Int)) (2 * radius + 1)
  offsets.flatMap fun dy : Int =>
    offsets.filterMap fun dx : Int =>
      if dx * dx + dy * dy ≤ (radius * radius : Int) then some (center.1 + dx, center.2 + dy)
      else none

/-- A place on the way from `a` to `b`, after `step` of `steps` equal steps. -/
def between (a b : Int) (step steps : Nat) : Int :=
  if steps = 0 then a else a + Int.fdiv (2 * (b - a) * step + steps) (2 * steps)

/-- The pixels of a segment of some width. It is walked along the axis on which it is longer, and
the width is measured along the other one. -/
def stroke (width : Nat) (a b : Int × Int) : List (Int × Int) :=
  let dx := (b.1 - a.1).natAbs
  let dy := (b.2 - a.2).natAbs
  let steps := max dx dy
  let across := run (-(width / 2 : Nat)) width
  (List.range (steps + 1)).flatMap fun step =>
    let x := between a.1 b.1 step steps
    let y := between a.2 b.2 step steps
    across.map fun offset => if dy ≤ dx then (x, y + offset) else (x + offset, y)

/-! ## Figures -/

/-- A pixel moved to the edge of the canvas where it lies beside it. -/
def nearest (canvas : Canvas) (pixel : Int × Int) : Int × Int :=
  (max 0 (min (canvas.width - 1) pixel.1), max 0 (min (canvas.height - 1) pixel.2))

/-- Paints a segment between two pixels. -/
def laySegment (canvas : Canvas) (c : Rgba) (width : Nat) (a b : Int × Int) : Canvas :=
  canvas.layAll c (stroke width (canvas.nearest a) (canvas.nearest b))

/-- Paints the points of a figure over a background. -/
def drawn (canvas : Canvas) (f : Figure) (dpi : Nat) : Canvas :=
  let colors := f.request.colors.toArray
  let colorAt := fun i => colors.getD i Rgba.black
  let size := (Svg.strokeOf f dpi).toNat
  let pixels := f.request.points.map (f.pixelOf canvas.width canvas.height)
  let segments := (pixels.zip (pixels.drop 1)).zipIdx
  match f.request.style with
  | .points =>
    let radius := min size (canvas.width + canvas.height)
    pixels.zipIdx.foldl (fun canvas (p, i) => canvas.layAll (colorAt i) (disc radius p)) canvas
  | .lines =>
    let breaks := f.request.breaks.toArray
    segments.foldl (fun canvas ((p, q), i) =>
      if holds breaks i then canvas else canvas.laySegment (colorAt i) size p q) canvas
  | .connectedLine =>
    segments.foldl (fun canvas ((p, q), _) => canvas.laySegment (colorAt 0) size p q) canvas

/-- The raster picture of a figure. -/
def ofFigure (f : Figure) (dpi width height : Nat) : Canvas :=
  ((blank width height).layAll f.request.background (sheet width height)).drawn f dpi

end Canvas

end CurveArt
