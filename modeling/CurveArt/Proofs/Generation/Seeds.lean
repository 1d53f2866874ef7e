import CurveArt.Proofs.Binary64.Halving
import CurveArt.Proofs.Formula.Draws
import CurveArt.Proofs.Generation.Answer

/-!
# Drawings that do not depend on the seed

A seed reaches a drawing through four streams: those of the two formulas, that of the jitter and
that of the colours. A formula without calls to `random` does not read its stream, no jitter draws
no noise, and only the random colour mode draws a colour. Where all of this holds, the seed is
reported and nothing else of it is seen.

Main results:

* `transformed_of_unmoved`, `assembled_of_mode`: stages that do not draw.
* `withSeed_reseeded`: one generation with two seeds.
* `generate_reseeded`: the same for settings with and without a seed of their own.
-/

namespace CurveArt

open Curve

namespace Generation

variable {s : Settings}

/-- What the settings have to leave out for their drawing not to depend on the seed. -/
structure Seedless (s : Settings) : Prop where
  first : ∀ e, Expr.ofText s.f1 = .ok e → e.WithoutRandom
  second : ∀ e, Expr.ofText s.f2 = .ok e → e.WithoutRandom
  /-- Zero with either sign. -/
  jitter : (s.jitter == 0.0) = true
  colorMode : s.colorMode ≠ .random

/-! ## Stages -/

/-- Without jitter no noise is drawn, so it does not matter from which stream. -/
theorem transformed_of_unmoved (h : s.jitter ≤ 0.0) (seed seed' : UInt64) (curve : Curve) :
    transformed s seed' curve = transformed s seed curve := by
  have hstill : ∀ (points : List Point) (stream : Random.Stream),
      Transform.jittered s.jitter points stream = .ok (points, stream) := by
    intro points stream
    unfold Transform.jittered
    exact if_pos h
  unfold transformed Transform.apply transform
  simp only [hstill]

/-- Only the random mode asks the stream for a colour. -/
theorem assembled_of_mode (h : s.colorMode ≠ .random) (seed seed' : UInt64)
    (points : List Stepped) : assembled s seed' points = assembled s seed points := by
  have hscheme : ∀ stream stream' : Random.Stream,
      ColorScheme.ofMode s.colorMode s.color s.color1 s.color2 stream' =
        ColorScheme.ofMode s.colorMode s.color s.color1 s.color2 stream := by
    intro stream stream'
    unfold ColorScheme.ofMode
    cases hmode : s.colorMode with
    | random => exact absurd hmode h
    | solid | linearGradient | radialGradient => rfl
  unfold assembled
  rw [hscheme]

/-- A seed only decides with which streams the two formulas begin. -/
theorem formulas_reseeded (s : Settings) (seed seed' : UInt64) :
    formulas s seed' = (formulas s seed).map fun pair =>
      (pair.1.at (.ofSeed seed' firstStream), pair.2.at (.ofSeed seed' secondStream)) := by
  unfold formulas
  rw [Formula.compile_at s.f1 s.vars (.ofSeed seed firstStream),
    Formula.compile_at s.f2 s.vars (.ofSeed seed secondStream)]
  cases Formula.compile s.f1 s.vars (.ofSeed seed firstStream) with
  | error cause => rfl
  | ok first =>
    cases Formula.compile s.f2 s.vars (.ofSeed seed secondStream) with
    | error cause => rfl
    | ok second => rfl

/-- The two stages after sampling, of a curve that does not know the seed. -/
theorem ofCurve_reseeded (h : Seedless s) (seed seed' : UInt64) (first second : Formula)
    (stream stream' : Random.Stream) (curve : Curve) :
    (ofCurve s seed' (first.at stream) (second.at stream') curve).value =
      (ofCurve s seed first second curve).value.map fun g => { g with seed := seed' } := by
  have hmoved := transformed_of_unmoved (Binary64.le_of_beq h.jitter) seed seed' curve
  unfold ofCurve
  rw [hmoved]
  cases transformed s seed curve with
  | error fault => rfl
  | ok moved =>
    dsimp only
    rw [assembled_of_mode h.colorMode seed seed']
    split
    · rfl
    · rfl

/-! ## Runs with two seeds -/

/-- One generation with two seeds: the same answer, apart from the seed that is reported. -/
theorem withSeed_reseeded (h : Seedless s) (seed seed' : UInt64) :
    (withSeed s seed').value = (withSeed s seed).value.map fun g => { g with seed := seed' } := by
  cases hvalid : s.validate with
  | error fault =>
    simp only [withSeed, hvalid]
    rfl
  | ok _ =>
    have hcompiled' := formulas_reseeded s seed seed'
    cases hcompiled : formulas s seed with
    | error fault =>
      rw [hcompiled] at hcompiled'
      simp only [withSeed, hvalid, hcompiled, hcompiled', Except.map]
    | ok pair =>
      obtain ⟨first, second⟩ := pair
      rw [hcompiled] at hcompiled'
      obtain ⟨hfirst, hsecond⟩ := formulas_eq_ok_iff.1 hcompiled
      have hdraws := Formula.drawCount_of_compile hfirst h.first
      have hdraws' := Formula.drawCount_of_compile hsecond h.second
      -- neither formula draws, so the two runs sample one curve
      have hcurve : ofOutcomes s.style.failurePolicy (place s) (outcomes first second (inputs s)) =
          ofOutcomes s.style.failurePolicy (place s)
            (outcomes (first.at (.ofSeed seed' firstStream))
              (second.at (.ofSeed seed' secondStream)) (inputs s)) := by
        rw [outcomes_of_drawCount hdraws hdraws']
      rw [withSeed_of_compiled hvalid hcompiled rfl, withSeed_of_compiled hvalid hcompiled' hcurve]
      split
      · rfl
      · exact ofCurve_reseeded h seed seed' first second _ _ _

/-- **A drawing without randomness does not depend on the seed.** Where neither formula calls
`random`, nothing is jittered and the colours are not random ones, two generations with any two
seeds, given by the settings or drawn, end with the same error or with the same request and the same
counts; each reports its own seed. -/
theorem generate_reseeded (h : Seedless s) (seed seed' : Option UInt64) (drawn drawn' : UInt64) :
    (generate { s with seed := seed' } drawn').value =
      (generate { s with seed } drawn).value.map fun g =>
        { g with seed := seed'.getD drawn' } :=
  withSeed_reseeded h (seed.getD drawn) (seed'.getD drawn')

/-- A drawn seed and a given one around the same pole. -/
theorem generate_reseeded_pole :
    ∃ g g', (generate { aroundPole .lines with seed := none } 7).value = .ok g ∧
      (generate { aroundPole .lines with seed := some 8 } 0).value = .ok g' ∧
      g' = { g with seed := 8 } := by
  have hread : ∀ text ∈ ["x", "1 / x"],
      (Expr.ofText text).toOption.all fun e => decide e.WithoutRandom := by decide +kernel
  have hwithout : ∀ text ∈ ["x", "1 / x"], ∀ e, Expr.ofText text = .ok e → e.WithoutRandom := by
    intro text htext e hof
    have hall := hread text htext
    rw [hof] at hall
    exact of_decide_eq_true hall
  have hseedless : Seedless (aroundPole .lines) :=
    ⟨hwithout "x" (by decide), hwithout "1 / x" (by decide), rfl, by decide⟩
  have hsame := generate_reseeded hseedless none (some 8) 7 0
  have hdrawn : (generate { aroundPole .lines with seed := none } 7).value.isOk = true := by
    decide +kernel
  cases hg : (generate { aroundPole .lines with seed := none } 7).value with
  | error fault =>
    rw [hg] at hdrawn
    cases hdrawn
  | ok g =>
    rw [hg] at hsame
    exact ⟨g, _, rfl, hsame, rfl⟩

end Generation

end CurveArt
