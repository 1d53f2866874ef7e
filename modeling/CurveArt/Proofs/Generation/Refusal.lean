import CurveArt.Proofs.Curve.NoiseRange
import CurveArt.Proofs.Curve.Settling
import CurveArt.Proofs.Generation.Answer

/-!
# What settings do not rule out

Once the settings have passed their check, the later stages rely on it: noise is drawn from a range
that has to have doubles in it, points are settled together with a list of step numbers that has to
reach as far as they do, and formulas look their variables up in inputs that have to be as many. All
of this holds, but for one jitter: the least positive double passes, and its half is zero.

Main results:

* `inputs_arity`: inputs are as many as the variables.
* `steps_length`: there is a step number for every transformed point.
* `generate_emptyRange_iff`: which settings leave noise without a range.
* `leastJitter_emptyRange`: there are such settings.
-/

namespace CurveArt

open Curve

/-! ## Inputs and variables -/

theorem Curve.turnInputs_arity {n : Nat} {input : List Float} (h : input ∈ turnInputs n) :
    input.length = 1 := by
  obtain ⟨i, -, rfl⟩ := List.mem_map.1 h
  rfl

theorem Curve.gridInputs_arity {lo hi : Float} {n : Nat} {input : List Float}
    (h : input ∈ gridInputs lo hi n) : input.length = 2 := by
  obtain ⟨x, -, hx⟩ := List.mem_flatMap.1 (List.mem_of_mem_take h)
  obtain ⟨y, -, rfl⟩ := List.mem_map.1 hx
  rfl

namespace Generation

variable {s : Settings} {seed : UInt64}

/-- Every style and every sampling gives as many inputs as it declares variables. -/
theorem inputs_arity {input : List Float} (h : input ∈ inputs s) :
    input.length = s.vars.length := by
  cases hstyle : s.style <;> cases hsampling : s.sampling <;>
    simp only [inputs, Settings.vars, Sampling.vars, hstyle, hsampling] at h ⊢ <;>
    first
    | exact turnInputs_arity h
    | exact gridInputs_arity h
    | (obtain ⟨x, -, rfl⟩ := List.mem_map.1 h; rfl)

/-- The formulas of the settings take as many inputs as they are given. -/
theorem formulas_arity {first second : Formula} (h : formulas s seed = .ok (first, second)) :
    first.vars = s.vars ∧ second.vars = s.vars := by
  obtain ⟨hfirst, hsecond⟩ := formulas_eq_ok_iff.1 h
  obtain ⟨-, e, -, heq⟩ := Formula.compile_eq_ok_iff.1 hfirst
  obtain ⟨-, e', -, heq'⟩ := Formula.compile_eq_ok_iff.1 hsecond
  rw [heq, heq']
  exact ⟨rfl, rfl⟩

/-! ## Steps and points -/

/-- The step numbers of the transformed points, in a list of their own. -/
def movedSteps (s : Settings) (curve : Curve) : List Nat :=
  let steps := curve.points.map Stepped.step
  if s.mirror then steps ++ steps.map (· + curve.total) else steps

/-- Mirroring makes as many new step numbers as points. -/
theorem steps_length {curve : Curve} {points : List Point} {left : Random.Stream}
    (h : (transform s).apply (curve.points.map Stepped.point) (.ofSeed seed jitterStream) =
      .ok (points, left)) : (movedSteps s curve).length = points.length := by
  rw [Transform.apply, Transform.jittered_eq, List.length_map] at h
  split at h
  · cases h
  · next noisy stream hnoisy =>
    -- noise moves the points one by one
    have hlength : noisy.length = curve.points.length := by
      cases hnoise : Transform.noise (transform s).jitter curve.points.length
          (.ofSeed seed jitterStream) with
      | error cause =>
        rw [hnoise] at hnoisy
        cases hnoisy
      | ok drawn =>
        rw [hnoise] at hnoisy
        obtain ⟨rfl, -⟩ := Prod.mk.inj (Except.ok.inj hnoisy)
        simp
    -- a mirror image has as many points as its original, and a turn as many as before
    obtain ⟨rfl, -⟩ := Prod.mk.inj (Except.ok.inj h)
    rw [Transform.rotated_eq_map, List.length_map, movedSteps]
    show _ = (if s.mirror then Transform.mirrored noisy else noisy).length
    split <;> simp [Transform.mirrored, hlength]

/-- Settling finds a step number for every point where there are as many of both. -/
theorem settleApart?_isSome {policy : FailurePolicy} {steps : List Nat} {points : List Point}
    (h : steps.length = points.length) : (settleApart? policy steps points).isSome := by
  obtain ⟨moved, rfl, rfl⟩ := exists_stepped h
  rw [settleApart?_map]
  rfl

/-! ## Noise -/

/-- A generation ends without a range exactly if that is how its noise ends. -/
theorem withSeed_emptyRange_iff : (withSeed s seed).value = .error (.noise .emptyRange) ↔
    s.validate = .ok () ∧ ∃ first second, formulas s seed = .ok (first, second) ∧
      noiseOf s seed first second = .error .emptyRange := by
  constructor
  · intro hvalue
    have hstages := withSeed_stages s seed
    rw [hvalue] at hstages
    -- no stage before the noise answers with a fault of the noise
    split at hstages
    · next fault hvalid =>
      rw [← Except.error.inj hstages] at hvalid
      exact absurd trivial (validate_error hvalid)
    · next hvalid =>
      split at hstages
      · cases hstages.1
      · next first hfirst =>
        split at hstages
        · cases hstages.1
        · next second hsecond =>
          refine ⟨hvalid, first, second, formulas_eq_ok_iff.2 ⟨hfirst, hsecond⟩, ?_⟩
          rcases hstages with ⟨cause, hnoise, hcause⟩ | ⟨r, -, -, ⟨-, hlost⟩ | ⟨-, hok⟩⟩
          · cases hcause
            exact hnoise
          · cases hlost
          · cases hok
  · rintro ⟨hvalid, first, second, hcompiled, hnoise⟩
    rcases withSeed_answersRun hvalid hcompiled with ⟨cause, hnoise', hvalue⟩ | ⟨r, rfl, rfl, -⟩
    · rw [hnoise] at hnoise'
      rw [hvalue, ← Except.error.inj hnoise']
    · -- a run has its noise
      have hdrawn : noiseOf s seed r.first r.second = _ := r.drawn
      rw [hnoise] at hdrawn
      cases hdrawn

/-- **What settings do not rule out.** A generation is left without a range to draw from exactly if
its settings pass with the least positive jitter and sampling leaves a point; the range of every
other positive jitter has doubles in it and a finite width. There is a step number for every point
that is settled, and an input for every variable. -/
theorem generate_emptyRange_iff (s : Settings) (drawn : UInt64) :
    let seed := s.seed.getD drawn
    ((generate s drawn).value = .error (.noise .emptyRange) ↔
      s.validate = .ok () ∧ s.jitter = Transform.leastWidth ∧
        ∃ first second, formulas s seed = .ok (first, second) ∧
          (ofOutcomes s.style.failurePolicy (place s)
            (outcomes first second (inputs s))).points ≠ []) ∧
    (s.validate = .ok () → ¬s.jitter ≤ 0.0 → s.jitter ≠ Transform.leastWidth →
      -(s.jitter / 2.0) < s.jitter / 2.0 ∧
        (s.jitter / 2.0 - -(s.jitter / 2.0)).isFinite = true) ∧
    (∀ curve points left,
      (transform s).apply (curve.points.map Stepped.point) (.ofSeed seed jitterStream) =
          .ok (points, left) →
        (settleApart? s.style.failurePolicy (movedSteps s curve) points).isSome) ∧
    (∀ first second, formulas s seed = .ok (first, second) → ∀ input ∈ inputs s,
      input.length = first.vars.length ∧ input.length = second.vars.length) := by
  intro seed
  refine ⟨?_, ?_, ?_, ?_⟩
  · show (withSeed s seed).value = _ ↔ _
    rw [withSeed_emptyRange_iff]
    refine and_congr_right fun hvalid => ?_
    have hnoise := fun first second => Transform.noise_emptyRange_iff
      (Settings.bounds_of_validate hvalid).2.2
      (ofOutcomes s.style.failurePolicy (place s) (outcomes first second (inputs s))).points.length
      (.ofSeed seed jitterStream)
    constructor
    · rintro ⟨first, second, hcompiled, hrefused⟩
      obtain ⟨hleast, hpoints⟩ := (hnoise first second).1 hrefused
      exact ⟨hleast, first, second, hcompiled, fun hnil => hpoints (by rw [hnil]; rfl)⟩
    · rintro ⟨hleast, first, second, hcompiled, hpoints⟩
      refine ⟨first, second, hcompiled, (hnoise first second).2 ⟨hleast, ?_⟩⟩
      exact fun hlength => hpoints (List.length_eq_zero_iff.1 hlength)
  · intro hvalid hpos hne
    exact Transform.range_of_width (Settings.bounds_of_validate hvalid).2.2 hpos hne
  · intro curve points left happly
    exact settleApart?_isSome (steps_length happly)
  · intro first second hcompiled input hinput
    obtain ⟨hfirst, hsecond⟩ := formulas_arity hcompiled
    rw [hfirst, hsecond]
    exact ⟨inputs_arity hinput, inputs_arity hinput⟩

/-- Two points of a line with the least positive jitter. -/
def leastJitter : Settings :=
  { Settings.default with
    f1 := "x", f2 := "1", domain := (1.0, 2.0), sampleCount := 2,
    jitter := Transform.leastWidth, seed := some 7 }

/-- Whether noise was left without a range. -/
def refusesRange : Except GenerationError Generation → Bool
  | .error (.noise cause) => cause == .emptyRange
  | .error _ => false
  | .ok _ => false

theorem eq_of_refusesRange {value : Except GenerationError Generation}
    (h : refusesRange value = true) : value = .error (.noise .emptyRange) := by
  unfold refusesRange at h
  split at h
  · next cause =>
    rw [beq_iff_eq.1 h]
  · cases h
  · cases h

/-- Settings that pass and leave noise without a range. -/
theorem leastJitter_emptyRange : leastJitter.validate = .ok () ∧
    ∀ drawn, (generate leastJitter drawn).value = .error (.noise .emptyRange) := by
  refine ⟨rfl, fun drawn => ?_⟩
  show (withSeed leastJitter 7).value = _
  exact eq_of_refusesRange (by decide +kernel)

end Generation

end CurveArt
