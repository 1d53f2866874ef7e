import CurveArt.Curve.Sampling

/-!
# What a sweep calls

A sweep calls two formulas once at each of its inputs, in their order, and every call goes on with
the streams that the calls before it have left. Nothing else of a formula changes on the way.

Main results:

* `outcomes_cons`: a sweep begins with its first input and goes on with what that has left.
* `outcomes_inputs`: each step has its own input.
* `mem_outcomes`: every outcome is one of the two formulas at some state of their streams.
* `sample_value`: what sampling answers with, as the curve of the outcomes.
-/

namespace CurveArt

/-- The formula with another state of its stream. -/
def Formula.at (f : Formula) (stream : Random.Stream) : Formula :=
  { f with stream }

/-- A call changes nothing of a formula but its stream. -/
theorem Formula.call_snd (f : Formula) (inputs : List Float) :
    ∃ stream, (f.call inputs).2 = f.at stream := by
  rw [Formula.call]
  split
  · exact ⟨_, rfl⟩
  · exact ⟨f.stream, rfl⟩

namespace Curve

variable {first second : Formula} {inputs : List (List Float)}

/-- What a sweep puts together stands before whatever had been put together already. -/
theorem Sweep.foldl_reversed (first second : Formula) (inputs : List (List Float))
    (done : List Outcome) :
    (inputs.foldl Sweep.next ⟨first, second, done⟩).reversed =
      (inputs.foldl Sweep.next ⟨first, second, []⟩).reversed ++ done := by
  -- the formulas change from step to step, so the induction is for any of them
  induction inputs generalizing first second done with
  | nil => rfl
  | cons input inputs ih =>
    rw [List.foldl_cons, List.foldl_cons, Sweep.next, Sweep.next, ih, ih _ _ [_], List.append_assoc]
    rfl

/-- A sweep takes the first input, and then is the sweep over the others from where the two streams
have got to. -/
theorem outcomes_cons (first second : Formula) (input : List Float)
    (inputs : List (List Float)) :
    outcomes first second (input :: inputs) =
      ⟨input, (first.call input).1, (second.call input).1⟩ ::
        outcomes (first.call input).2 (second.call input).2 inputs := by
  rw [outcomes, Sweep.run, List.foldl_cons, Sweep.next, Sweep.foldl_reversed, List.reverse_append]
  rfl

theorem outcomes_inputs (first second : Formula) (inputs : List (List Float)) :
    (outcomes first second inputs).map Outcome.inputs = inputs := by
  induction inputs generalizing first second with
  | nil => rfl
  | cons input inputs ih => rw [outcomes_cons, List.map_cons, ih]

/-- There is one outcome for each input. -/
theorem outcomes_length (first second : Formula) (inputs : List (List Float)) :
    (outcomes first second inputs).length = inputs.length := by
  rw [← List.length_map Outcome.inputs, outcomes_inputs]

/-- Every outcome is what the two formulas give at some state of their streams. -/
theorem mem_outcomes {o : Outcome} (h : o ∈ outcomes first second inputs) :
    ∃ stream stream', o.first = ((first.at stream).call o.inputs).1 ∧
      o.second = ((second.at stream').call o.inputs).1 := by
  induction inputs generalizing first second with
  | nil => cases h
  | cons input inputs ih =>
    rw [outcomes_cons] at h
    rcases List.mem_cons.1 h with rfl | h
    · exact ⟨first.stream, second.stream, rfl, rfl⟩
    · -- the later calls begin where the first ones have left the streams
      obtain ⟨stream, stream', hfirst, hsecond⟩ := ih h
      obtain ⟨left, hleft⟩ := first.call_snd input
      obtain ⟨left', hleft'⟩ := second.call_snd input
      rw [hleft] at hfirst
      rw [hleft'] at hsecond
      exact ⟨stream, stream', hfirst, hsecond⟩

/-! ## Answers -/

/-- What sampling answers with: the curve, or an error with both texts if it has no point. -/
def answer (first second : Formula) (curve : Curve) : Except GenerationError Curve :=
  if curve.points = [] then .error (.allSamplesFailed first.source second.source) else .ok curve

theorem sample_value (first second : Formula) (inputs : List (List Float)) (policy : FailurePolicy)
    (place : Float → Float → Point) :
    (sample first second inputs policy place).value =
      answer first second (ofOutcomes policy place (outcomes first second inputs)) := by
  rw [sample, answer]
  split
  · next h => rw [if_pos (List.isEmpty_iff.1 h)]
  · next h =>
    rw [if_neg fun hnil => h (List.isEmpty_iff.2 hnil)]
    split <;> rfl

end Curve

end CurveArt
