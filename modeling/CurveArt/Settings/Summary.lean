import CurveArt.Color.Text
import CurveArt.Settings.Basic

/-!
# The summary of settings

A summary has one line `key: value` for each setting that the drawing uses; settings without effect
for the chosen style and colour mode are left out.
-/

namespace CurveArt.Settings

/-- The keys of the two formulas. -/
def formulaKeys (s : Settings) : String × String :=
  match s.style with
  | .polar => ("r_expr", "theta_expr")
  | _ => ("f1_expr", "f2_expr")

/-- The domain and how it is walked, in the styles that have one. -/
def domainEntries (s : Settings) : List (String × String) :=
  match s.style with
  | .polar => []
  | _ =>
    [("sampling", s.sampling.name),
      ("domain", "[" ++ plainText s.domain.1 ++ ", " ++ plainText s.domain.2 ++ "]")]

/-- The colours that the colour mode uses. -/
def colorEntries (s : Settings) : List (String × String) :=
  match s.colorMode with
  | .solid => [("color", s.color.text)]
  | .linearGradient | .radialGradient => [("color1", s.color1.text), ("color2", s.color2.text)]
  | .random => []

/-- The size of a dot or the width of a line. -/
def geometryEntry (s : Settings) : String × String :=
  match s.style.drawStyle with
  | .points => ("point_size", plainText s.pointSize)
  | .lines | .connectedLine => ("line_width", plainText s.lineWidth)

/-- Keys and values in the order of the summary. -/
def entries (s : Settings) : List (String × String) :=
  [("style", s.style.name), (s.formulaKeys.1, s.f1), (s.formulaKeys.2, s.f2)] ++
    s.domainEntries ++
    [("sample_count", toString s.sampleCount), ("color_mode", s.colorMode.name)] ++
    s.colorEntries ++
    [("alpha", plainText s.alpha), s.geometryEntry, ("jitter", plainText s.jitter),
      ("mirror", if s.mirror then "true" else "false"),
      ("rotation_degrees", plainText s.rotationDegrees),
      ("background_color", s.backgroundColor.text),
      ("seed", match s.seed with
        | some seed => toString seed
        | none => "random"),
      ("figure_size", plainText s.figureSize.1 ++ " x " ++ plainText s.figureSize.2 ++ " in")]

/-- The summary. -/
def summary (s : Settings) : String :=
  String.join (s.entries.map fun (key, value) => key ++ ": " ++ value ++ "\n")

end CurveArt.Settings
