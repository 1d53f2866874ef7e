/-!
# Ways of drawing and of exporting
-/

namespace CurveArt

/-- How a sequence of points is drawn. -/
inductive DrawStyle where
  /-- A dot for each point, each in a colour of its own. -/
  | points
  /-- A segment between neighbours, each in a colour of its own. -/
  | lines
  /-- One path through all points in one colour. -/
  | connectedLine
  deriving Repr, DecidableEq, Inhabited

inductive ExportFormat where
  | png
  | svg
  deriving Repr, DecidableEq, Inhabited

def ExportFormat.name : ExportFormat → String
  | .png => "png"
  | .svg => "svg"

end CurveArt
