import CurveArt.Curve.Linspace

/-!
# How many inputs a sweep has

Main results:

* `linspace_length`, `turnInputs_length`, `gridInputs_length`: exactly as many as were asked for.
* `le_gridSide_sq`: the grid that rows are taken from has enough points.
-/

namespace CurveArt.Curve

theorem linspace_length (lo hi : Float) (n : Nat) : (linspace lo hi n).length = n := by
  match n with
  | 0 | 1 => rfl
  | n + 2 => simp [linspace]

theorem turnInputs_length (n : Nat) : (turnInputs n).length = n := by
  simp [turnInputs]

/-- The search for a side ends at one whose square is large enough. -/
theorem le_sideFrom_sq (n side : Nat) : n ≤ sideFrom n side * sideFrom n side := by
  fun_induction sideFrom n side with
  | case1 side h => exact h
  | case2 side h ih => exact ih

theorem le_gridSide_sq (n : Nat) : n ≤ gridSide n * gridSide n :=
  le_sideFrom_sq n 0

theorem gridInputs_length (lo hi : Float) (n : Nat) : (gridInputs lo hi n).length = n := by
  have hpoints : ∀ axis : List Float,
      (axis.flatMap fun x => axis.map fun y => [x, y]).length = axis.length * axis.length := by
    intro axis
    simp [List.length_flatMap, List.map_const']
  rw [gridInputs, List.length_take, hpoints, linspace_length]
  exact Nat.min_eq_left (le_gridSide_sq n)

end CurveArt.Curve
