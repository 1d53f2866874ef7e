import CurveArt.Proofs.Curve.Inputs
import CurveArt.Proofs.Curve.Steps
import CurveArt.Proofs.Formula.Alone

/-!
# Sampling as two runs apart

A sweep calls two formulas in turn, and each of them has a stream of its own. So the values of a
sweep are those of two runs, in each of which one formula is called alone; a failure of one formula
moves nothing in the run of the other. The curve is then made of the two lists of values, and what a
policy does with failures comes only after them.

Main results:

* `foldl_next_first`, `foldl_next_second`, `outcomes_first`, `outcomes_second`: a sweep is two runs.
* `ofOutcomes_combines`: a curve is what the two lists of values say, under either policy.
* `dropped_eq_filter`: dropping failures is filling them in and leaving their steps out afterwards.
* `samplings_run_apart`: all of this for every way of sampling.
-/

namespace CurveArt.Curve

variable {first second : Formula} {inputs : List (List Float)}

/-! ## Two runs in one sweep -/

theorem foldl_next_first (s : Sweep) (inputs : List (List Float)) :
    (inputs.foldl Sweep.next s).first = (s.first.alone inputs).2 := by
  induction inputs generalizing s with
  | nil => rfl
  | cons input inputs ih => rw [List.foldl_cons, ih, Formula.alone_cons, Sweep.next]

theorem foldl_next_second (s : Sweep) (inputs : List (List Float)) :
    (inputs.foldl Sweep.next s).second = (s.second.alone inputs).2 := by
  induction inputs generalizing s with
  | nil => rfl
  | cons input inputs ih => rw [List.foldl_cons, ih, Formula.alone_cons, Sweep.next]

theorem outcomes_first (first second : Formula) (inputs : List (List Float)) :
    (outcomes first second inputs).map Outcome.first = (first.alone inputs).1 := by
  induction inputs generalizing first second with
  | nil => rfl
  | cons input inputs ih => rw [outcomes_cons, List.map_cons, ih, Formula.alone_cons]

theorem outcomes_second (first second : Formula) (inputs : List (List Float)) :
    (outcomes first second inputs).map Outcome.second = (second.alone inputs).1 := by
  induction inputs generalizing first second with
  | nil => rfl
  | cons input inputs ih => rw [outcomes_cons, List.map_cons, ih, Formula.alone_cons]

/-! ## The curve of two lists of values -/

/-- Whether both lists have a value at a step. -/
def bothAt (as bs : List (Except EvalError Float)) (step : Nat) : Bool :=
  match as[step]?, bs[step]? with
  | some (.ok _), some (.ok _) => true
  | _, _ => false

/-- Whether a policy keeps a step. -/
def keepsStep (policy : FailurePolicy) (as bs : List (Except EvalError Float)) (step : Nat) :
    Bool :=
  match policy with
  | .drop => bothAt as bs step
  | .zero => true

/-- A curve puts two lists of values together under a policy: it counts the steps and those at which
a value is missing, it has the steps that the policy keeps, in their order, and the point of a step
is placed by the two values, where a missing one counts as zero. -/
structure Combines (policy : FailurePolicy) (place : Float → Float → Point)
    (as bs : List (Except EvalError Float)) (curve : Curve) : Prop where
  total : curve.total = as.length
  failed : curve.failed = (List.range as.length).countP fun step => !bothAt as bs step
  steps : curve.points.map Stepped.step = (List.range as.length).filter (keepsStep policy as bs)
  points : ∀ q ∈ curve.points, ∃ a b, as[q.step]? = some a ∧ bs[q.step]? = some b ∧
    q.point = place (Outcome.orZero a) (Outcome.orZero b)

variable {policy : FailurePolicy} {place : Float → Float → Point} {os : List Outcome}

theorem bothAt_outcomes (os : List Outcome) (step : Nat) :
    bothAt (os.map Outcome.first) (os.map Outcome.second) step =
      (os[step]?.map Outcome.succeeded).getD false := by
  rw [bothAt, List.getElem?_map, List.getElem?_map]
  cases os[step]? with
  | none => rfl
  | some o => rcases o with ⟨input, _ | a, _ | b⟩ <;> rfl

/-- A property of outcomes is counted step by step. -/
theorem countP_range_outcomes (p : Outcome → Bool) (os : List Outcome) :
    os.countP p = (List.range os.length).countP fun step => (os[step]?.map p).getD false := by
  -- looking every step up gives the list again
  have hlist : (List.range os.length).map (fun step => os[step]?) = os.map some := by
    refine List.ext_getElem (by simp) fun step hstep _ => ?_
    simp
  calc os.countP p = (os.map some).countP fun o => (o.map p).getD false := by
        rw [List.countP_map]
        rfl
    _ = _ := by
        rw [← hlist, List.countP_map]
        rfl

/-- The coordinates that a policy gives are the two values, with zero for a missing one. -/
theorem coordinates?_eq_some {o : Outcome} {c : Float × Float}
    (h : o.coordinates? policy = some c) :
    c = (Outcome.orZero o.first, Outcome.orZero o.second) := by
  -- where a value is missing, only one of the policies gives coordinates
  rcases o with ⟨input, _ | a, _ | b⟩ <;> cases policy <;>
    first
    | exact (Option.some.inj h).symm
    | cases h

/-- The steps that have a point are those that the policy keeps. -/
theorem placed_isSome {step : Nat} (hstep : step < os.length) :
    (placed policy place os step).isSome =
      keepsStep policy (os.map Outcome.first) (os.map Outcome.second) step := by
  rw [placed, List.getElem?_eq_getElem hstep, Option.bind_some, Option.isSome_map]
  cases policy with
  | drop =>
    rw [Outcome.coordinates?_drop, keepsStep, bothAt_outcomes, List.getElem?_eq_getElem hstep]
    rfl
  | zero => exact Outcome.coordinates?_zero os[step]

theorem ofOutcomes_combines (policy : FailurePolicy) (place : Float → Float → Point)
    (os : List Outcome) :
    Combines policy place (os.map Outcome.first) (os.map Outcome.second)
      (ofOutcomes policy place os) where
  total := (List.length_map _).symm
  failed := by
    show os.countP (fun o => !o.succeeded) = _
    rw [countP_range_outcomes, List.length_map]
    refine List.countP_congr fun step hstep => ?_
    rw [bothAt_outcomes, List.getElem?_eq_getElem (List.mem_range.1 hstep)]
    rfl
  steps := by
    rw [ofOutcomes_points, steps_along, List.length_map]
    exact List.filter_congr fun step hstep => placed_isSome (List.mem_range.1 hstep)
  points := by
    intro q hq
    rw [ofOutcomes_points, mem_along] at hq
    obtain ⟨hstep, hplaced⟩ := hq
    rw [placed, List.getElem?_eq_getElem hstep, Option.bind_some, Option.map_eq_some_iff] at hplaced
    obtain ⟨c, hc, hpoint⟩ := hplaced
    refine ⟨os[q.step].first, os[q.step].second, ?_, ?_, ?_⟩
    · rw [List.getElem?_map, List.getElem?_eq_getElem hstep, Option.map_some]
    · rw [List.getElem?_map, List.getElem?_eq_getElem hstep, Option.map_some]
    · rw [← hpoint, coordinates?_eq_some hc]

/-- Where both values are there, the policies place them alike. -/
theorem placed_drop (place : Float → Float → Point) (os : List Outcome) (step : Nat) :
    placed .drop place os step =
      if bothAt (os.map Outcome.first) (os.map Outcome.second) step then
        placed .zero place os step
      else none := by
  rw [bothAt_outcomes, placed, placed]
  cases os[step]? with
  | none => rfl
  | some o => rcases o with ⟨input, _ | a, _ | b⟩ <;> rfl

/-- A condition on steps leaves out those of a list of points. -/
theorem filter_step_along (keep : Nat → Bool) (image : Nat → Option Point) (n : Nat) :
    (along image n).filter (fun q => keep q.step) =
      along (fun k => if keep k then image k else none) n := by
  induction n with
  | zero => rfl
  | succ n ih =>
    rw [along_succ, along_succ, List.filter_append, ih]
    congr 1
    cases h : image n <;> by_cases hkeep : keep n <;> simp [hkeep]

theorem dropped_eq_filter (place : Float → Float → Point) (os : List Outcome) :
    (ofOutcomes .drop place os).points =
      (ofOutcomes .zero place os).points.filter fun q =>
        bothAt (os.map Outcome.first) (os.map Outcome.second) q.step := by
  rw [ofOutcomes_points, ofOutcomes_points, filter_step_along]
  exact along_congr fun step _ => placed_drop place os step

/-! ## Every way of sampling -/

/-- A way of sampling two formulas at inputs is made of two runs: each formula gives what it gives
alone and is left as it is left alone, and for each policy the answer is that of the curve which
puts the two lists of values together. -/
structure RunsApart (first second : Formula) (inputs : List (List Float))
    (place : Float → Float → Point) (sampling : FailurePolicy → Except GenerationError Curve) :
    Prop where
  firstLength : (first.alone inputs).1.length = inputs.length
  secondLength : (second.alone inputs).1.length = inputs.length
  finite : ∀ x, .ok x ∈ (first.alone inputs).1 ∨ .ok x ∈ (second.alone inputs).1 →
    x.isFinite = true
  firstLeft : (Sweep.run first second inputs).first = (first.alone inputs).2
  secondLeft : (Sweep.run first second inputs).second = (second.alone inputs).2
  answers : ∃ curve : FailurePolicy → Curve,
    (∀ policy, Combines policy place (first.alone inputs).1 (second.alone inputs).1
      (curve policy) ∧ sampling policy = answer first second (curve policy)) ∧
    (curve .drop).points = (curve .zero).points.filter fun q =>
      bothAt (first.alone inputs).1 (second.alone inputs).1 q.step

theorem sample_runsApart (first second : Formula) (inputs : List (List Float))
    (place : Float → Float → Point) :
    RunsApart first second inputs place
      fun policy => (sample first second inputs policy place).value where
  firstLength := Formula.alone_length first inputs
  secondLength := Formula.alone_length second inputs
  finite := fun _ h => h.elim Formula.alone_isFinite Formula.alone_isFinite
  firstLeft := foldl_next_first _ inputs
  secondLeft := foldl_next_second _ inputs
  answers := by
    refine ⟨fun policy => ofOutcomes policy place (outcomes first second inputs), ?_, ?_⟩
    · intro policy
      rw [← outcomes_first first second, ← outcomes_second first second]
      exact ⟨ofOutcomes_combines policy place _, sample_value first second inputs policy place⟩
    · rw [← outcomes_first first second, ← outcomes_second first second]
      exact dropped_eq_filter place _

/-- Sampling at any inputs runs the two formulas apart, and so do a sweep of the domain, a grid over
it and a full turn, each at its own inputs, unless the sample count or the domain is refused. -/
theorem samplings_run_apart (first second : Formula) (domain : Float × Float) (n : Nat) :
    (∀ inputs place, RunsApart first second inputs place
      fun policy => (sample first second inputs policy place).value) ∧
    (match inputFault? n (some domain) with
      | some fault => ∀ policy, (sweep first second domain n policy).value = .error fault
      | none => RunsApart first second ((linspace domain.1 domain.2 n).map fun x => [x])
          placeCartesian fun policy => (sweep first second domain n policy).value) ∧
    (match inputFault? n (some domain) with
      | some fault => ∀ policy, (grid first second domain n policy).value = .error fault
      | none => RunsApart first second (gridInputs domain.1 domain.2 n)
          placeCartesian fun policy => (grid first second domain n policy).value) ∧
    (match inputFault? n none with
      | some fault => ∀ policy, (polar first second n policy).value = .error fault
      | none => RunsApart first second (turnInputs n)
          placePolar fun policy => (polar first second n policy).value) := by
  -- each way of sampling refuses its inputs or samples at them
  refine ⟨fun inputs place => sample_runsApart first second inputs place, ?_, ?_, ?_⟩
  · simp only [sweep]
    cases inputFault? n (some domain) with
    | some fault => exact fun _ => rfl
    | none => exact sample_runsApart first second _ placeCartesian
  · simp only [grid]
    cases inputFault? n (some domain) with
    | some fault => exact fun _ => rfl
    | none => exact sample_runsApart first second _ placeCartesian
  · simp only [polar]
    cases inputFault? n none with
    | some fault => exact fun _ => rfl
    | none => exact sample_runsApart first second _ placePolar

end CurveArt.Curve
