import CurveArt.Proofs.Curve.Steps

/-!
# What sampling reports of its failures

Sampling ends with a record that speaks of all its points, as soon as the failures have come up to
the steps. What is counted as a failure is a step at which a value is missing, whichever of the two
it is. So the record says that no step has both values, and that is all it says: if each step has
one of them, the points need not have a zero in the other coordinate alone.

Steps without any value are the case that the wording of the record describes. There every point is
the one of two zeros; and the record goes beyond that case exactly if some step has one value and no
step has two.

Main results:

* `allDefaulted_mem_iff`: when the record is made, for any list of outcomes.
* `sample_reports`: what it tells about the steps and about the points.
* `sample_overstates`: a run that is reported although half of its values are there.
-/

namespace CurveArt.Curve

namespace Outcome

/-- Neither formula has a value. -/
def bothFailed (o : Outcome) : Bool :=
  match o.first, o.second with
  | .error _, .error _ => true
  | _, _ => false

/-- One formula has a value and the other has none. -/
def oneFailed (o : Outcome) : Bool :=
  match o.first, o.second with
  | .ok _, .error _ => true
  | .error _, .ok _ => true
  | _, _ => false

/-- What did not succeed failed once or twice. -/
theorem bothFailed_of_not_oneFailed {o : Outcome} (hsucceeded : o.succeeded = false)
    (hone : o.oneFailed = false) : o.bothFailed = true := by
  rcases o with ⟨inputs, first | first, second | second⟩ <;>
    simp_all [succeeded, oneFailed, bothFailed]

theorem not_succeeded_of_bothFailed {o : Outcome} (h : o.bothFailed = true) :
    o.succeeded = false ∧ o.oneFailed = false := by
  rcases o with ⟨inputs, first | first, second | second⟩ <;>
    simp_all [succeeded, oneFailed, bothFailed]

theorem orZero_of_bothFailed {o : Outcome} (h : o.bothFailed = true) :
    orZero o.first = 0.0 ∧ orZero o.second = 0.0 := by
  rcases o with ⟨inputs, first | first, second | second⟩ <;> simp_all [bothFailed, orZero]

/-- The records of a step are about the step alone. -/
theorem allDefaulted_not_mem_events (source source' : String) (o : Outcome) :
    Event.allDefaulted ∉ o.events source source' := by
  have hfailure : ∀ (source : String) (result : Except EvalError Float),
      Event.allDefaulted ∉ failure source o.inputs result := by
    intro source result
    cases result <;> simp [failure]
  simp [events, hfailure]

end Outcome

variable {first second : Formula} {inputs : List (List Float)} {policy : FailurePolicy}
  {place : Float → Float → Point} {outcomes : List Outcome} {curve : Curve}

/-! ## Counting failures -/

/-- The failures come up to the steps exactly if no step succeeded. -/
theorem failed_eq_total_iff :
    (ofOutcomes policy place outcomes).failed = (ofOutcomes policy place outcomes).total ↔
      ∀ o ∈ outcomes, o.succeeded = false := by
  show outcomes.countP (fun o => !o.succeeded) = outcomes.length ↔ _
  simp [List.countP_eq_length]

/-- Where failures are dropped, a point is left only of a step that succeeded. -/
theorem exists_succeeded_of_drop (h : (ofOutcomes .drop place outcomes).points ≠ []) :
    ∃ o ∈ outcomes, o.succeeded = true := by
  obtain ⟨q, hq⟩ := List.exists_mem_of_ne_nil _ h
  rw [ofOutcomes_points, mem_along] at hq
  obtain ⟨hstep, hplaced⟩ := hq
  refine ⟨outcomes[q.step], List.getElem_mem hstep, ?_⟩
  -- the step has coordinates, as it has a point
  rw [← Outcome.coordinates?_drop]
  rw [placed, List.getElem?_eq_getElem hstep, Option.bind_some] at hplaced
  cases hcoordinates : outcomes[q.step].coordinates? .drop with
  | some c => rfl
  | none =>
    rw [hcoordinates] at hplaced
    cases hplaced

/-- Where a missing value counts as zero, every step has a point. -/
theorem ofOutcomes_points_zero (place : Float → Float → Point) (outcomes : List Outcome) :
    (ofOutcomes .zero place outcomes).points = outcomes.zipIdx.map fun (o, step) =>
      ⟨step, place (Outcome.orZero o.first) (Outcome.orZero o.second)⟩ := by
  show outcomes.zipIdx.filterMap _ = _
  rw [← List.filterMap_eq_map]
  rfl

/-! ## The record -/

/-- The record is made exactly if the failures have come up to the steps. -/
theorem allDefaulted_mem_iff (h : (sample first second inputs policy place).value = .ok curve) :
    Event.allDefaulted ∈ (sample first second inputs policy place).events ↔
      curve.failed = curve.total := by
  -- neither the records of the steps nor the summary is the one that is looked for
  have hbefore : Event.allDefaulted ∉
      (Curve.outcomes first second inputs).flatMap (Outcome.events first.source second.source) ++
        [.sampled (ofOutcomes policy place (Curve.outcomes first second inputs)).points.length
          (ofOutcomes policy place (Curve.outcomes first second inputs)).total
          (ofOutcomes policy place (Curve.outcomes first second inputs)).failed
          first.source second.source] := by
    simp [Outcome.allDefaulted_not_mem_events]
  simp only [sample] at h ⊢
  split at h
  · cases h
  · next hpoints =>
    rw [if_neg hpoints]
    split at h <;> obtain rfl := Except.ok.inj h
    · next hall =>
      rw [if_pos hall]
      simp [hall]
    · next hsome =>
      rw [if_neg hsome]
      exact iff_of_false hbefore hsome

/-- What a sampled curve and its outcomes have to do with each other, where `said` stands for the
record that every sample failed. -/
structure Reports (place : Float → Float → Point) (outcomes : List Outcome) (curve : Curve)
    (said : Prop) : Prop where
  /-- The record is made exactly if no step has both values. -/
  said_iff : said ↔ ∀ o ∈ outcomes, o.succeeded = false
  /-- It is made where no step has any value, and then every point is that of two zeros. -/
  of_bothFailed : (∀ o ∈ outcomes, o.bothFailed = true) →
    said ∧ ∀ q ∈ curve.points, q.point = place 0.0 0.0
  /-- Wherever it is made no step is left out, and a point has zero only for what is missing. -/
  points_of_said : said → curve.points = outcomes.zipIdx.map fun (o, step) =>
    ⟨step, place (Outcome.orZero o.first) (Outcome.orZero o.second)⟩
  /-- It goes beyond the case that it describes exactly if some step has one value, and none two. -/
  overstates_iff : said ∧ ¬ (∀ o ∈ outcomes, o.bothFailed = true) ↔
    (∀ o ∈ outcomes, o.succeeded = false) ∧ ∃ o ∈ outcomes, o.oneFailed = true

theorem Reports.of_said {said : Prop}
    (hsaid : said ↔ ∀ o ∈ outcomes, o.succeeded = false)
    (hpoints : said → curve.points = outcomes.zipIdx.map fun (o, step) =>
      ⟨step, place (Outcome.orZero o.first) (Outcome.orZero o.second)⟩) :
    Reports place outcomes curve said where
  said_iff := hsaid
  points_of_said := hpoints
  of_bothFailed := by
    intro hboth
    have hmade : said := hsaid.2 fun o ho => (Outcome.not_succeeded_of_bothFailed (hboth o ho)).1
    refine ⟨hmade, fun q hq => ?_⟩
    rw [hpoints hmade, List.mem_map] at hq
    obtain ⟨⟨o, step⟩, ho, rfl⟩ := hq
    obtain ⟨hfirst, hsecond⟩ :=
      Outcome.orZero_of_bothFailed (hboth o (List.fst_mem_of_mem_zipIdx ho))
    exact congrArg₂ place hfirst hsecond
  overstates_iff := by
    rw [hsaid]
    refine and_congr_right fun hnone => ?_
    constructor
    · intro hnot
      -- a step that did not fail twice failed once
      by_contra hone
      refine hnot fun o ho => Outcome.bothFailed_of_not_oneFailed (hnone o ho) ?_
      exact Bool.eq_false_iff.2 fun h => hone ⟨o, ho, h⟩
    · rintro ⟨o, ho, hone⟩ hboth
      have hnot := (Outcome.not_succeeded_of_bothFailed (hboth o ho)).2
      rw [hone] at hnot
      cases hnot

/-- **What the record of a run without success says.** Whatever two formulas are sampled at whatever
inputs, a run that gives a curve ends with the record exactly if at each step a value is missing,
which needs the policy that puts zeros. Where both are missing everywhere, all points are that of two
zeros; and the record is also made where that is not so, exactly if some step has one value and no
step has two. -/
theorem sample_reports (h : (sample first second inputs policy place).value = .ok curve) :
    Reports place (Curve.outcomes first second inputs) curve
        (Event.allDefaulted ∈ (sample first second inputs policy place).events) ∧
      (Event.allDefaulted ∈ (sample first second inputs policy place).events → policy = .zero) := by
  have hmade := allDefaulted_mem_iff h
  rw [sample_value, answer] at h
  split at h
  · cases h
  · next hpoints =>
    obtain rfl := Except.ok.inj h
    have hsaid := hmade.trans failed_eq_total_iff
    have hpolicy : Event.allDefaulted ∈ (sample first second inputs policy place).events →
        policy = .zero := by
      intro hin
      cases policy with
      | zero => rfl
      | drop =>
        -- a point that is left has succeeded, and the record says that none has
        obtain ⟨o, ho, hsucceeded⟩ := exists_succeeded_of_drop hpoints
        rw [hsaid.1 hin o ho] at hsucceeded
        cases hsucceeded
    refine ⟨Reports.of_said hsaid fun hin => ?_, hpolicy⟩
    obtain rfl := hpolicy hin
    exact ofOutcomes_points_zero place _

/-- Two steps at which the first formula has a value and the second has none. -/
theorem exists_halfMissing : ∃ first second curve,
    Formula.compile "x" ["x"] (.ofSeed 7 1) = .ok first ∧
    Formula.compile "log(-1)" ["x"] (.ofSeed 7 2) = .ok second ∧
    (sample first second [[1.0], [2.0]] .zero placeCartesian).value = .ok curve ∧
    curve.failed = curve.total ∧ curve.points.map (fun q => q.point.x == 0.0) = [false, false] := by
  have hcurve : ((Formula.compile "x" ["x"] (.ofSeed 7 1)).toOption.any fun first =>
      (Formula.compile "log(-1)" ["x"] (.ofSeed 7 2)).toOption.any fun second =>
        (sample first second [[1.0], [2.0]] .zero placeCartesian).value.toOption.any fun curve =>
          decide (curve.failed = curve.total ∧
            curve.points.map (fun q => q.point.x == 0.0) = [false, false])) = true := by
    decide +kernel
  cases hfirst : Formula.compile "x" ["x"] (.ofSeed 7 1) with
  | error cause =>
    rw [hfirst] at hcurve
    cases hcurve
  | ok first =>
    cases hsecond : Formula.compile "log(-1)" ["x"] (.ofSeed 7 2) with
    | error cause =>
      rw [hfirst, hsecond] at hcurve
      cases hcurve
    | ok second =>
      cases hsample : (sample first second [[1.0], [2.0]] .zero placeCartesian).value with
      | error fault =>
        simp [hfirst, hsecond, hsample, Except.toOption] at hcurve
      | ok curve =>
        refine ⟨first, second, curve, rfl, rfl, hsample, ?_⟩
        simpa [hfirst, hsecond, hsample, Except.toOption] using hcurve

/-- A run in which one formula has all its values. -/
theorem sample_reports_half : ∃ first second curve,
    Formula.compile "x" ["x"] (.ofSeed 7 1) = .ok first ∧
    Formula.compile "log(-1)" ["x"] (.ofSeed 7 2) = .ok second ∧
    (sample first second [[1.0], [2.0]] .zero placeCartesian).value = .ok curve ∧
    Reports placeCartesian (Curve.outcomes first second [[1.0], [2.0]]) curve
      (Event.allDefaulted ∈ (sample first second [[1.0], [2.0]] .zero placeCartesian).events) := by
  obtain ⟨first, second, curve, hfirst, hsecond, hsample, -⟩ := exists_halfMissing
  exact ⟨first, second, curve, hfirst, hsecond, hsample, (sample_reports hsample).1⟩

/-- The record speaks of points at zero, and no point has its first coordinate there. -/
theorem sample_overstates : ∃ first second curve,
    Formula.compile "x" ["x"] (.ofSeed 7 1) = .ok first ∧
    Formula.compile "log(-1)" ["x"] (.ofSeed 7 2) = .ok second ∧
    (sample first second [[1.0], [2.0]] .zero placeCartesian).value = .ok curve ∧
    Event.allDefaulted ∈ (sample first second [[1.0], [2.0]] .zero placeCartesian).events ∧
    curve.points ≠ [] ∧ ∀ q ∈ curve.points, q.point ≠ placeCartesian 0.0 0.0 := by
  obtain ⟨first, second, curve, hfirst, hsecond, hsample, hall, hpoints⟩ := exists_halfMissing
  refine ⟨first, second, curve, hfirst, hsecond, hsample, (allDefaulted_mem_iff hsample).2 hall,
    ?_, fun q hq hzero => ?_⟩
  · rintro hnil
    rw [hnil] at hpoints
    cases hpoints
  · -- a point of two zeros would have a first coordinate that is zero
    have hx : (q.point.x == 0.0) ∈ [false, false] := by
      rw [← hpoints]
      exact List.mem_map_of_mem hq
    rw [hzero] at hx
    exact absurd hx (by decide +kernel)

end CurveArt.Curve
