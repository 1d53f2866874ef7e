import CurveArt.Proofs.Generation.Requests

/-!
# Points that do not depend on how they look

Nine of the settings only say how a drawing looks: the colour mode and the colours, the opacity, the
sizes of points and lines, the background and the size of the figure. They come in where the points
are already settled, and the colours draw from a stream of their own. So two drawings that differ in
nothing else have the same points and the same gaps, whatever `random` and the jitter have drawn.

`SameCurve` says what two settings have to agree on, `SameOutline` what their drawings then have in
common. Each stage of a generation takes the one to the other.

Main results:

* `ofCurve_outline`: what is made of one curve in two looks.
* `generate_outline`: two generations that differ in their looks only.
-/

namespace CurveArt

open Curve

/-! ## Settings for the same curve -/

namespace Settings

/-- Two settings agree on everything that the points of their drawings can depend on. -/
structure SameCurve (s s' : Settings) : Prop where
  style : s'.style = s.style
  f1 : s'.f1 = s.f1
  f2 : s'.f2 = s.f2
  sampling : s'.sampling = s.sampling
  domain : s'.domain = s.domain
  sampleCount : s'.sampleCount = s.sampleCount
  jitter : s'.jitter = s.jitter
  mirror : s'.mirror = s.mirror
  rotationDegrees : s'.rotationDegrees = s.rotationDegrees
  seed : s'.seed = s.seed

/-- The curve of the first settings with the looks of the others. -/
def dressed (s look : Settings) : Settings :=
  { s with
    colorMode := look.colorMode, color := look.color, color1 := look.color1,
    color2 := look.color2, alpha := look.alpha, pointSize := look.pointSize,
    lineWidth := look.lineWidth, backgroundColor := look.backgroundColor,
    figureSize := look.figureSize }

/-- Settings for the same curve differ in their looks only. -/
theorem SameCurve.eq_dressed {s s' : Settings} (h : s.SameCurve s') : s' = s.dressed s' := by
  obtain ⟨hstyle, hf1, hf2, hsampling, hdomain, hcount, hjitter, hmirror, hrotation, hseed⟩ := h
  unfold dressed
  rw [← hstyle, ← hf1, ← hf2, ← hsampling, ← hdomain, ← hcount, ← hjitter, ← hmirror,
    ← hrotation, ← hseed]

end Settings

namespace Generation

/-! ## Drawings with the same outline -/

/-- Two drawings have the same points with the same gaps, in as many colours. -/
structure SameOutline (g g' : Generation) : Prop where
  points : g'.request.points = g.request.points
  breaks : g'.request.breaks = g.request.breaks
  style : g'.request.style = g.request.style
  colors : g'.request.colors.length = g.request.colors.length
  total : g'.total = g.total
  failed : g'.failed = g.failed

/-- Two answers are the same error, or drawings with the same outline. -/
def SameAnswer : Except GenerationError Generation → Except GenerationError Generation → Prop
  | .error fault, .error fault' => fault' = fault
  | .ok g, .ok g' => g.SameOutline g'
  | _, _ => False

variable {s : Settings}

/-! ## Stages

None of the stages up to the settled points asks for a look. -/

theorem formulas_dressed (s look : Settings) (seed : UInt64) :
    formulas (s.dressed look) seed = formulas s seed :=
  rfl

theorem sampled_dressed (s look : Settings) (first second : Formula) :
    sampled (s.dressed look) first second = sampled s first second :=
  rfl

theorem transformed_dressed (s look : Settings) (seed : UInt64) (curve : Curve) :
    transformed (s.dressed look) seed curve = transformed s seed curve :=
  rfl

/-- Every scheme gives each point one colour, so as many are left for the style. -/
theorem assembled_colors_dressed (s look : Settings) (seed : UInt64) (points : List Stepped) :
    (assembled (s.dressed look) seed points).colors.length =
      (assembled s seed points).colors.length := by
  simp only [assembled, Request.assemble, Settings.dressed]
  cases s.style.drawStyle with
  | points => simp only [ColorScheme.colors_length]
  | lines | connectedLine => simp only [List.length_take, ColorScheme.colors_length]

/-- What is made of one curve in two looks. -/
theorem ofCurve_outline (s look : Settings) (seed : UInt64) (first second : Formula)
    (curve : Curve) :
    SameAnswer (ofCurve s seed first second curve).value
      (ofCurve (s.dressed look) seed first second curve).value := by
  have hstyle : (s.dressed look).style = s.style := rfl
  simp only [ofCurve, transformed_dressed, hstyle]
  cases transformed s seed curve with
  | error fault => exact rfl
  | ok moved =>
    -- both settle the same points, so either nothing is left of both or something of both
    dsimp only
    split
    · exact rfl
    · exact ⟨rfl, rfl, rfl, assembled_colors_dressed s look seed _, rfl, rfl⟩

/-! ## Two runs -/

/-- One seed, one curve, two looks. -/
theorem withSeed_outline {look : Settings} (hvalid : s.validate = .ok ())
    (hvalid' : (s.dressed look).validate = .ok ()) (seed : UInt64) :
    SameAnswer (withSeed s seed).value (withSeed (s.dressed look) seed).value := by
  unfold withSeed
  rw [hvalid, hvalid', formulas_dressed]
  cases formulas s seed with
  | error fault => exact rfl
  | ok pair =>
    obtain ⟨first, second⟩ := pair
    simp only [sampled_dressed]
    cases (sampled s first second).value with
    | error fault => exact rfl
    | ok curve => exact ofCurve_outline s look seed first second curve

/-- **How a drawing looks never moves its points.** Two settings that pass, with the same seed of
their own, that agree on everything but the colours, the opacity, the sizes and the background, end
with the same error, or with drawings that have the same points, breaks and style, as many colours,
and the same counts. -/
theorem generate_outline {s s' : Settings} {seed : UInt64} (hseed : s.seed = some seed)
    (hcurve : s.SameCurve s') (hvalid : s.validate = .ok ()) (hvalid' : s'.validate = .ok ())
    (drawn drawn' : UInt64) :
    SameAnswer (generate s drawn).value (generate s' drawn').value := by
  have hdressed := hcurve.eq_dressed
  have hseed' : s'.seed = some seed := hcurve.seed.trans hseed
  rw [generate, generate, hseed, hseed', Option.getD_some, Option.getD_some, hdressed]
  exact withSeed_outline hvalid (hdressed ▸ hvalid') seed

/-- Noise and a formula that draws, in one colour. -/
def noisyDraws : Settings :=
  { Settings.default with
    style := .lines, f1 := "x + random()", f2 := "1 / x", domain := (-1.0, 1.0),
    sampleCount := 3, jitter := 0.5, seed := some 7 }

/-- The same in a colour that is drawn. -/
def randomDraws : Settings :=
  { noisyDraws with colorMode := .random, alpha := 1.0, lineWidth := 3.0 }

/-- The random colour takes nothing from the noise and the formulas. -/
theorem generate_outline_draws :
    ∃ g g', (generate noisyDraws 0).value = .ok g ∧ (generate randomDraws 0).value = .ok g' ∧
      g.request.breaks = [0] ∧ g'.request.points = g.request.points := by
  have hdrawn : (generate noisyDraws 0).value.toOption.map (·.request.breaks) = some [0] := by
    decide +kernel
  have hseed : noisyDraws.seed = some 7 := rfl
  have hcurve : noisyDraws.SameCurve randomDraws :=
    ⟨rfl, rfl, rfl, rfl, rfl, rfl, rfl, rfl, rfl, rfl⟩
  have hsame := generate_outline hseed hcurve rfl rfl 0 0
  cases hg : (generate noisyDraws 0).value with
  | error fault =>
    rw [hg] at hdrawn
    cases hdrawn
  | ok g =>
    rw [hg] at hdrawn hsame
    cases hg' : (generate randomDraws 0).value with
    | error fault =>
      rw [hg'] at hsame
      cases hsame
    | ok g' =>
      rw [hg'] at hsame
      exact ⟨g, g', rfl, rfl, Option.some.inj hdrawn, hsame.points⟩

end Generation

end CurveArt
