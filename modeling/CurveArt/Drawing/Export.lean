import CurveArt.Drawing.Svg
import CurveArt.Log
import CurveArt.Text.Lines

/-!
# Exported pictures

A figure becomes a picture of some width and height when it is exported at a resolution. A vector
picture is a text; of a raster picture only the size is settled here.
-/

namespace CurveArt

/-- A picture as it is exported. -/
inductive Picture where
  | vector (lines : List String)
  | raster (width height : Nat)
  deriving Repr, Inhabited

/-- The number of bytes of a picture's text. -/
def Picture.bytes : Picture → Option Nat
  | .vector lines => some (Text.ofLines lines).utf8ByteSize
  | .raster _ _ => none

namespace Figure

/-- The figure in a format, as a picture of the given size. -/
def picture (f : Figure) (dpi width height : Nat) : ExportFormat → Picture
  | .svg => .vector (Svg.document f dpi width height)
  | .png => .raster width height

/-- Exports a figure at a resolution. -/
def exported (f : Figure) (format : ExportFormat) (dpi : Nat) :
    Except RenderError (Logged Picture) :=
  match f.pixelSize dpi with
  | .error e => .error e
  | .ok (width, height) =>
    let picture := f.picture dpi width height format
    .ok ⟨picture, [.exported format width height picture.bytes]⟩

end Figure

end CurveArt
