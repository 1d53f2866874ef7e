import CurveArt.Color.Text
import CurveArt.Drawing.Figure

/-!
# Vector pictures

A figure as an SVG document, one element to a line: the background, then the dots, the segments or
the path. Elements that are fully transparent are left out.
-/

namespace CurveArt

/-! ## Looking positions up -/

/-- Narrows the position of `x` in an ascending array down to one place: `base` is the first place
that is left, `size` their number. -/
def narrow (a : Array Nat) (x base : Nat) (size : Nat) : Nat :=
  if _h : 1 < size then
    let half := size / 2
    let middle := base + half
    narrow a x (if x < a.getD middle 0 then base else middle) (size - half)
  else base
termination_by size
decreasing_by omega

/-- Whether an ascending array holds a number. -/
def holds (a : Array Nat) (x : Nat) : Bool :=
  if a.isEmpty then false else a.getD (narrow a x 0 a.size) 0 == x

namespace Svg

/-! ## Attributes -/

def upperHexDigit (n : Nat) : Char :=
  (Text.hexDigit n).toUpper

/-- The three channels of a colour in capital hexadecimal. -/
def colorText (c : Rgba) : String :=
  String.ofList ('#' :: (c.bytes.take 3).flatMap fun byte =>
    [upperHexDigit (byte / 16), upperHexDigit (byte % 16)])

def opacityOf (c : Rgba) : Float :=
  Binary64.clamp 0.0 1.0 c.a

/-- An attribute with a blank in front. -/
def setting (name value : String) : String :=
  " " ++ name ++ "=\"" ++ value ++ "\""

/-- An element without content. -/
def element (name : String) (attributes : List (String × String)) : String :=
  "<" ++ name ++ String.join (attributes.map fun (key, value) => setting key value) ++ "/>"

/-- The lines of an element of the given colour: none where it is fully transparent. -/
def visible (c : Rgba) (line : String) : List String :=
  if opacityOf c == 0.0 then [] else [line]

/-! ## Elements -/

/-- The name that every SVG document gives its vocabulary. -/
def vocabulary : String :=
  "http:" ++ "//www.w3.org/2000/svg"

def header (width height : Nat) : String :=
  "<svg" ++ setting "width" (toString width) ++ setting "height" (toString height) ++
    setting "viewBox" ("0 0 " ++ toString width ++ " " ++ toString height) ++
    setting "xmlns" vocabulary ++ ">"

def background (c : Rgba) (width height : Nat) : List String :=
  visible c (element "rect"
    [("x", "0"), ("y", "0"), ("width", toString width), ("height", toString height),
      ("opacity", plainText (opacityOf c)), ("fill", colorText c), ("stroke", "none")])

def dot (c : Rgba) (radius : Int) (center : Int × Int) : List String :=
  visible c (element "circle"
    [("cx", toString center.1), ("cy", toString center.2), ("r", toString radius),
      ("opacity", plainText (opacityOf c)), ("fill", colorText c), ("stroke", "none"),
      ("stroke-width", "1")])

/-- A line through the given pixels. -/
def path (c : Rgba) (width : Int) (pixels : List (Int × Int)) : List String :=
  visible c (element "polyline"
    [("fill", "none"), ("opacity", plainText (opacityOf c)), ("stroke", colorText c),
      ("stroke-width", toString width),
      ("points", String.join (pixels.map fun (x, y) => toString x ++ "," ++ toString y ++ " "))])

/-! ## Documents -/

/-- The number of pixels of a dot's radius or of a line's width, which is a positive whole number of
at most 31 and 32 bits. -/
def strokeOf (f : Figure) (dpi : Nat) : Int :=
  match f.request.style with
  | .points => Binary64.clampedWhole Word.least32 Word.greatest32 (f.strokePixels dpi)
  | _ => Binary64.clampedWhole 0 (Word.count 32 - 1) (f.strokePixels dpi)

/-- The elements of a figure's points. The colour at a position is black where the request has none;
segments at a break are left out. -/
def drawing (f : Figure) (dpi width height : Nat) : List String :=
  let colors := f.request.colors.toArray
  let colorAt := fun i => colors.getD i Rgba.black
  let stroke := strokeOf f dpi
  let pixels := f.request.points.map (f.pixelOf width height)
  match f.request.style with
  | .points => pixels.zipIdx.flatMap fun (p, i) => dot (colorAt i) stroke p
  | .lines =>
    let breaks := f.request.breaks.toArray
    (pixels.zip (pixels.drop 1)).zipIdx.flatMap fun ((p, q), i) =>
      if holds breaks i then [] else path (colorAt i) stroke [p, q]
  | .connectedLine => path (colorAt 0) stroke pixels

/-- The lines of the document for a picture of the given size. -/
def document (f : Figure) (dpi width height : Nat) : List String :=
  header width height :: background f.request.background width height ++
    drawing f dpi width height ++ ["</svg>"]

end Svg

end CurveArt
