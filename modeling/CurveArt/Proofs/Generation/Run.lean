import CurveArt.Generation.Basic
import CurveArt.Proofs.Curve.Images
import CurveArt.Proofs.Curve.Inputs
import CurveArt.Proofs.Curve.Steps

/-!
# The runs that give a drawing

A `Run` holds what the stages of a generation have come to: the two formulas, the outcomes of their
sweep and the noise of the jitter. Everything else is determined by these, step by step: `image`
says where a step ends up before its point is settled, `settledImage` what is left of it then. A
generation that gives a drawing is one of a run, and its points are those along `settledImage`.

Steps from the total on are the reflections of the steps before it.

Main results:

* `sampled_eq_ok`: what sampling gives, as outcomes at the inputs of the settings.
* `transformed_eq_ok`: the three transformations together, step by step.
* `exists_run`: what a generation gives is determined by its run.
-/

namespace CurveArt

open Curve

/-! ## Lists beside their steps -/

/-- Steps and points that are computed apart are put together again in pairs. -/
theorem zipWith_stepped (step : Stepped → Nat) (point : Stepped → Point) (points : List Stepped) :
    List.zipWith Stepped.mk (points.map step) (points.map point) =
      points.map fun q => ⟨step q, point q⟩ := by
  rw [List.zipWith_map, List.zipWith_self]

/-! ## Settling -/

/-- What the policy leaves of a point. -/
def Point.settled? (policy : FailurePolicy) (p : Point) : Option Point :=
  match policy with
  | .drop => if p.isFinite then some p else none
  | .zero => some p.finiteOrZero

theorem Curve.settled_along (policy : FailurePolicy) (image : Nat → Option Point) (n : Nat) :
    settled policy (along image n) = along (fun k => (image k).bind (Point.settled? policy)) n := by
  cases policy with
  | drop =>
    rw [settled, filter_along]
    refine along_congr fun k _ => ?_
    cases image k with
    | none => rfl
    | some p => simp [Option.filter, Point.settled?]
  | zero =>
    rw [settled, map_along]
    refine along_congr fun k _ => ?_
    cases image k <;> rfl

/-! ## Sampling -/

/-- Sampling that gives a curve gives that of the outcomes. -/
theorem Curve.sample_eq_ok {first second : Formula} {inputs : List (List Float)}
    {policy : FailurePolicy} {place : Float → Float → Point} {curve : Curve}
    (h : (sample first second inputs policy place).value = .ok curve) :
    curve = ofOutcomes policy place (outcomes first second inputs) := by
  rw [sample_value, answer] at h
  split at h
  · cases h
  · exact (Except.ok.inj h).symm

namespace Generation

variable {s : Settings} {seed : UInt64}

/-- The inputs at which the two formulas are sampled. -/
def inputs (s : Settings) : List (List Float) :=
  match s.style, s.sampling with
  | .polar, _ => turnInputs s.sampleCount
  | _, .sweep => (linspace s.domain.1 s.domain.2 s.sampleCount).map fun x => [x]
  | _, .grid => gridInputs s.domain.1 s.domain.2 s.sampleCount

/-- How two values make a point. -/
def place (s : Settings) : Float → Float → Point :=
  match s.style with
  | .polar => placePolar
  | _ => placeCartesian

theorem inputs_length (s : Settings) : (inputs s).length = s.sampleCount := by
  rw [inputs]
  split
  · exact turnInputs_length s.sampleCount
  · rw [List.length_map, linspace_length]
  · exact gridInputs_length s.domain.1 s.domain.2 s.sampleCount

/-- Whatever the style and the sampling, a sampled curve is that of the outcomes at the inputs. -/
theorem sampled_eq_ok {first second : Formula} {curve : Curve}
    (h : (sampled s first second).value = .ok curve) :
    curve = ofOutcomes s.style.failurePolicy (place s) (outcomes first second (inputs s)) := by
  simp only [sampled, polar, sweep, grid] at h
  cases hstyle : s.style <;> cases hsampling : s.sampling <;>
    simp only [hstyle, hsampling] at h <;> split at h <;>
    first
    | cases h
    | simpa only [inputs, place, hstyle, hsampling] using sample_eq_ok h

/-! ## Runs -/

/-- What the stages of a generation have come to. -/
structure Run (s : Settings) (seed : UInt64) where
  first : Formula
  second : Formula
  /-- The two formulas are those of the settings. -/
  compiled : formulas s seed = .ok (first, second)
  /-- What jitter adds to the sampled points, in their order. -/
  noise : List Point
  /-- What is left of the stream of the jitter. -/
  left : Random.Stream
  /-- The noise is what the stream gives for the points that sampling has left. -/
  drawn : Transform.noise s.jitter
      (ofOutcomes s.style.failurePolicy (place s)
        (outcomes first second (inputs s))).points.length (.ofSeed seed jitterStream) =
    .ok (noise, left)

namespace Run

variable (r : Run s seed)

/-- What the formulas gave, step by step. -/
def outcomes : List Curve.Outcome :=
  Curve.outcomes r.first r.second (inputs s)

def total : Nat :=
  r.outcomes.length

def failed : Nat :=
  r.outcomes.countP fun o => !o.succeeded

/-- The point of a step as it was sampled. -/
def sampleAt : Nat → Option Point :=
  placed s.style.failurePolicy (place s) r.outcomes

/-- The point of a step with its noise. Its place in the noise is the number of points that the
steps before it have left. -/
def noisyAt (k : Nat) : Option Point :=
  (r.sampleAt k).map fun p => p.shifted r.noise[(along r.sampleAt k).length]?

/-- The transformed point of a step; from the total on, that of the reflection. -/
def image (k : Nat) : Option Point :=
  if k < r.total then (r.noisyAt k).map (Point.turned s.rotationDegrees)
  else (r.noisyAt (k - r.total)).map fun p => p.reflected.turned s.rotationDegrees

/-- How many steps there are with the reflected ones. -/
def reach : Nat :=
  if s.mirror then r.total + r.total else r.total

/-- What settling leaves of the transformed point of a step. -/
def settledImage (k : Nat) : Option Point :=
  (r.image k).bind (Point.settled? s.style.failurePolicy)

/-- The points of the drawing with their steps. -/
def points : List Stepped :=
  along r.settledImage r.reach

/-- The steps that have a point in the drawing. -/
def steps : List Nat :=
  r.points.map Stepped.step

/-- The generation that the run leads to. -/
def generation : Generation :=
  ⟨assembled s seed r.points, seed, r.total, r.failed⟩

/-! ### The stages of a run -/

/-- The sampled curve of the run. -/
def curve : Curve :=
  ofOutcomes s.style.failurePolicy (place s) r.outcomes

theorem curve_points : r.curve.points = along r.sampleAt r.total :=
  ofOutcomes_points _ _ _

/-- The sampled points with their noise keep their steps. -/
theorem noisy_eq_along :
    (r.curve.points.zipIdx.map fun q => (⟨q.1.step, q.1.point.shifted r.noise[q.2]?⟩ : Stepped)) =
      along r.noisyAt r.total := by
  rw [curve_points]
  exact map_zipIdx_along (fun p i => p.shifted r.noise[i]?) r.sampleAt r.total

/-- Noise leaves the steps as they are. -/
theorem noisy_steps :
    r.curve.points.map Stepped.step = (along r.noisyAt r.total).map Stepped.step := by
  rw [← noisy_eq_along, List.map_map]
  conv_lhs => rw [← List.zipIdx_map_fst 0 r.curve.points, List.map_map]
  rfl

/-- Noise moves each point by the displacement at its place. -/
theorem noisy_points :
    ((r.curve.points.map Stepped.point).zipIdx.map fun q => q.1.shifted r.noise[q.2]?) =
      (along r.noisyAt r.total).map Stepped.point := by
  rw [← noisy_eq_along, List.zipIdx_map, List.map_map, List.map_map]
  rfl

/-- The jitter of the run gives its noisy points. -/
theorem jittered_curve :
    Transform.jittered s.jitter (r.curve.points.map Stepped.point) (.ofSeed seed jitterStream) =
      .ok ((along r.noisyAt r.total).map Stepped.point, r.left) := by
  have hdrawn : Transform.noise s.jitter r.curve.points.length (.ofSeed seed jitterStream) =
      .ok (r.noise, r.left) := r.drawn
  rw [Transform.jittered_eq, List.length_map, hdrawn, Except.map, noisy_points]

/-- The transformed points are those along `image`, as far as the run reaches. -/
theorem transformed_eq : transformed s seed r.curve = .ok (along r.image r.reach) := by
  have hfirst : along (fun k => (r.noisyAt k).map (Point.turned s.rotationDegrees)) r.total =
      along r.image r.total :=
    along_congr fun k hk => by rw [image, if_pos hk]
  -- steps and points go through the stage apart, and both are those of the noisy points
  rw [transformed, Transform.apply, transform]
  simp only [jittered_curve, noisy_steps]
  rw [Transform.rotated_eq_map, reach]
  split
  · -- the reflected half goes on where the sweep has ended
    have hsecond : along (fun k => r.image (r.total + k)) r.total =
        along (fun k => (r.noisyAt k).map fun p => p.reflected.turned s.rotationDegrees)
          r.total :=
      along_congr fun k hk => by
        rw [image, if_neg (by omega), Nat.add_sub_cancel_left]
    rw [along_add, ← hfirst, hsecond, ← map_along, ← map_along, Transform.mirrored,
      List.map_append, List.zipWith_append (by simp)]
    simp only [List.map_map, zipWith_stepped]
    rfl
  · rw [← hfirst, ← map_along, List.map_map, zipWith_stepped]
    rfl

theorem settle_transformed :
    (settle s.style.failurePolicy (along r.image r.reach)).value = r.points :=
  settled_along _ _ _

/-- There are as many steps as samples were asked for. -/
theorem total_eq : r.total = s.sampleCount := by
  rw [total, outcomes, outcomes_length, inputs_length]

end Run

/-- Transforming a curve fails only where its noise cannot be drawn. -/
theorem exists_noise {curve : Curve} {moved : List Stepped}
    (h : transformed s seed curve = .ok moved) :
    ∃ noise left, Transform.noise s.jitter curve.points.length (.ofSeed seed jitterStream) =
      .ok (noise, left) := by
  simp only [transformed, Transform.apply, transform, Transform.jittered_eq, List.length_map] at h
  cases hdrawn : Transform.noise s.jitter curve.points.length (.ofSeed seed jitterStream) with
  | error cause =>
    rw [hdrawn] at h
    cases h
  | ok drawn => exact ⟨drawn.1, drawn.2, rfl⟩

/-- A generation that gives a drawing is that of a run which leaves at least one point. -/
theorem exists_run {drawn : UInt64} {g : Generation} (h : (generate s drawn).value = .ok g) :
    ∃ r : Run s (s.seed.getD drawn), r.points ≠ [] ∧ g = r.generation := by
  -- every stage that fails ends the generation, so all of them have given something
  simp only [generate, withSeed] at h
  split at h
  · cases h
  · split at h
    · cases h
    · next first second hcompiled =>
      split at h
      · cases h
      · next curve hsampled =>
        obtain rfl := sampled_eq_ok hsampled
        simp only [ofCurve] at h
        split at h
        · cases h
        · next moved hmoved =>
          obtain ⟨noise, left, hdrawn⟩ := exists_noise hmoved
          -- what the stages have given is a run, and the rest of the generation follows from it
          let r : Run s (s.seed.getD drawn) := ⟨first, second, hcompiled, noise, left, hdrawn⟩
          obtain rfl : along r.image r.reach = moved :=
            Except.ok.inj (r.transformed_eq.symm.trans hmoved)
          rw [r.settle_transformed] at h
          split at h
          · cases h
          · next hpoints =>
            refine ⟨r, fun hnil => hpoints (List.isEmpty_iff.2 hnil), ?_⟩
            exact (Except.ok.inj h).symm

end Generation

end CurveArt
