import CurveArt.Proofs.Curve.Sweep
import Mathlib.Data.List.Basic
import Mathlib.Data.List.Induction

/-!
# Points along a sweep

Every stage between a sweep and its drawing keeps a list of points with their step numbers. All of
these lists have one form: a function says what becomes of each step, and the list has the steps
that have not been left out, in their order. A stage then changes only the function, so nothing
about step numbers has to be followed through the stages.

Main results:

* `along_increasing`: the step numbers ascend.
* `mem_steps_along`: the steps that are left are those that have a point.
* `map_zipIdx_along`, `along_add`: what stages do to such lists, as what they do to the function.
* `ofOutcomes_points`: the points of a sweep have this form.
-/

namespace CurveArt.Curve

/-- The points of `n` steps, where `image` says what becomes of a step. -/
def along (image : Nat → Option Point) (n : Nat) : List Stepped :=
  (List.range n).filterMap fun step => (image step).map (Stepped.mk step)

variable {image image' : Nat → Option Point} {n : Nat}

theorem along_zero (image : Nat → Option Point) : along image 0 = [] :=
  rfl

/-- The last step comes last. -/
theorem along_succ (image : Nat → Option Point) (n : Nat) :
    along image (n + 1) = along image n ++ ((image n).map (Stepped.mk n)).toList := by
  rw [along, List.range_succ, List.filterMap_append, ← along]
  cases h : image n <;> simp [h]

theorem along_congr (h : ∀ k < n, image k = image' k) : along image n = along image' n := by
  refine List.filterMap_congr fun k hk => ?_
  rw [h k (List.mem_range.1 hk)]

theorem mem_along {q : Stepped} : q ∈ along image n ↔ q.step < n ∧ image q.step = some q.point := by
  simp only [along, List.mem_filterMap, List.mem_range, Option.map_eq_some_iff]
  constructor
  · rintro ⟨k, hk, p, hp, rfl⟩
    exact ⟨hk, hp⟩
  · rintro ⟨hlt, himage⟩
    exact ⟨q.step, hlt, q.point, himage, rfl⟩

/-- A step is left exactly if it has a point. -/
theorem mem_steps_along {k : Nat} :
    k ∈ (along image n).map Stepped.step ↔ k < n ∧ (image k).isSome := by
  rw [List.mem_map]
  constructor
  · rintro ⟨q, hq, rfl⟩
    obtain ⟨hlt, himage⟩ := mem_along.1 hq
    exact ⟨hlt, by rw [himage]; rfl⟩
  · rintro ⟨hlt, hsome⟩
    obtain ⟨p, hp⟩ := Option.isSome_iff_exists.1 hsome
    exact ⟨⟨k, p⟩, mem_along.2 ⟨hlt, hp⟩, rfl⟩

/-- The steps that are left, without their points. -/
theorem steps_along (image : Nat → Option Point) (n : Nat) :
    (along image n).map Stepped.step = (List.range n).filter fun k => (image k).isSome := by
  induction n with
  | zero => rfl
  | succ n ih =>
    rw [along_succ, List.map_append, ih, List.range_succ, List.filter_append]
    cases h : image n <;> simp [h]

/-- The number of points depends only on which steps are left out. -/
theorem length_along_congr (h : ∀ k < n, (image k).isSome = (image' k).isSome) :
    (along image n).length = (along image' n).length := by
  rw [← List.length_map Stepped.step, steps_along, ← List.length_map Stepped.step, steps_along]
  congr 1
  exact List.filter_congr fun k hk => h k (List.mem_range.1 hk)

/-- Where no step is left out, the steps are all there are. -/
theorem steps_along_of_isSome (h : ∀ k < n, (image k).isSome) :
    (along image n).map Stepped.step = List.range n := by
  rw [steps_along, List.filter_eq_self]
  exact fun k hk => h k (List.mem_range.1 hk)

/-! ## Stages -/

theorem map_along (f : Point → Point) (image : Nat → Option Point) (n : Nat) :
    (along image n).map (fun q => ⟨q.step, f q.point⟩) = along (fun k => (image k).map f) n := by
  rw [along, along, List.map_filterMap]
  refine List.filterMap_congr fun k _ => ?_
  cases image k <;> rfl

theorem filter_along (keep : Point → Bool) (image : Nat → Option Point) (n : Nat) :
    (along image n).filter (fun q => keep q.point) = along (fun k => (image k).filter keep) n := by
  induction n with
  | zero => rfl
  | succ n ih =>
    rw [along_succ, along_succ, List.filter_append, ih]
    congr 1
    cases h : image n with
    | none => rfl
    | some p => by_cases hkeep : keep p <;> simp [Option.filter, hkeep]

/-- A change that depends on the position in the list: the position of a step is the number of
points that the steps before it have left. -/
theorem map_zipIdx_along (f : Point → Nat → Point) (image : Nat → Option Point) (n : Nat) :
    (along image n).zipIdx.map (fun q => ⟨q.1.step, f q.1.point q.2⟩) =
      along (fun k => (image k).map fun p => f p (along image k).length) n := by
  induction n with
  | zero => rfl
  | succ n ih =>
    -- the last point stands behind all those that the steps before it have left
    rw [along_succ, along_succ, List.zipIdx_append, List.map_append, ih]
    congr 1
    cases h : image n <;> simp

/-- Steps beyond the first `m` go on with their numbering. -/
theorem along_add (image : Nat → Option Point) (m n : Nat) :
    along image (m + n) =
      along image m ++ (along (fun k => image (m + k)) n).map fun q => ⟨q.step + m, q.point⟩ := by
  induction n with
  | zero => simp [along_zero]
  | succ n ih =>
    rw [← Nat.add_assoc, along_succ, ih, along_succ, List.map_append, List.append_assoc]
    congr 2
    cases image (m + n) <;> simp [Nat.add_comm]

/-! ## Sweeps -/

/-- Where the policy and the placement put the sample of a step. -/
def placed (policy : FailurePolicy) (place : Float → Float → Point) (outcomes : List Outcome)
    (step : Nat) : Option Point :=
  outcomes[step]?.bind fun o => (o.coordinates? policy).map fun c => place c.1 c.2

theorem Outcome.coordinates?_zero (o : Outcome) : (o.coordinates? .zero).isSome = true :=
  rfl

/-- Where failures are dropped, an outcome has coordinates exactly if both formulas succeeded. -/
theorem Outcome.coordinates?_drop (o : Outcome) : (o.coordinates? .drop).isSome = o.succeeded := by
  rcases o with ⟨inputs, first | first, second | second⟩ <;> rfl

variable {policy : FailurePolicy} {place : Float → Float → Point}

theorem placed_append_left {outcomes : List Outcome} {o : Outcome} {k : Nat}
    (h : k < outcomes.length) :
    placed policy place (outcomes ++ [o]) k = placed policy place outcomes k := by
  rw [placed, placed, List.getElem?_append_left h]

/-- The points of a curve are those of its outcomes, along all of them. -/
theorem ofOutcomes_points (policy : FailurePolicy) (place : Float → Float → Point)
    (outcomes : List Outcome) :
    (ofOutcomes policy place outcomes).points =
      along (placed policy place outcomes) outcomes.length := by
  show outcomes.zipIdx.filterMap _ = _
  -- outcomes are added at the end, where they do not change the numbers of the others
  induction outcomes using List.reverseRecOn with
  | nil => rfl
  | append_singleton outcomes o ih =>
    rw [List.zipIdx_append, List.filterMap_append, ih, List.length_append, List.length_singleton,
      along_succ, along_congr fun k hk => placed_append_left hk]
    congr 1
    cases h : o.coordinates? policy <;> simp [placed, h]

end CurveArt.Curve
