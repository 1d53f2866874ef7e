import CurveArt.Proofs.Binary64.Whole
import CurveArt.Proofs.Curve.Inputs
import CurveArt.Proofs.Curve.Sweep

/-!
# Points of a square lattice

A sweep over two variables takes the first points of the smallest square lattice that has enough of
them, row by row. Counted from zero, point `k` stands in row `k / side` and column `k % side`.

Main results:

* `gridSide_isLeast`: the side is the least one with enough points.
* `measuredSide_eq`: rounding the root up in doubles gives that side.
* `getElem?_gridInputs`: what stands at a place of the lattice.
* `grid_enumerates`: what a sweep over two variables evaluates.
-/

namespace CurveArt.Curve

open Binary64

variable {n k side : Nat} {lo hi : Float}

/-! ## The side -/

/-- Every side that is passed over has too few points. -/
theorem sq_lt_of_lt_sideFrom (n start : Nat) (h : start ≤ side) (h' : side < sideFrom n start) :
    side * side < n := by
  fun_induction sideFrom n start with
  | case1 start hstop => omega
  | case2 start hmore ih =>
    rcases Nat.lt_or_eq_of_le h with hlt | rfl
    · exact ih hlt h'
    · exact not_le.1 hmore

/-- The side is the least whose square is at least the number of points. -/
theorem gridSide_isLeast (n : Nat) : IsLeast {side | n ≤ side * side} (gridSide n) :=
  ⟨le_gridSide_sq n, fun _ h =>
    not_lt.1 fun hlt => (sq_lt_of_lt_sideFrom n 0 (Nat.zero_le _) hlt).not_ge h⟩

theorem gridSide_le (n : Nat) : gridSide n ≤ n :=
  (gridSide_isLeast n).2 (Nat.le_mul_self n)

theorem two_le_gridSide (hn : 2 ≤ n) : 2 ≤ gridSide n := by
  have hsq := le_gridSide_sq n
  by_contra hsmall
  have hone : gridSide n ≤ 1 := by omega
  have := Nat.mul_le_mul hone hone
  omega

/-- The side as it is measured in doubles: the root of the count, rounded up. -/
def measuredSide (n : Nat) : Nat :=
  (clampedWhole 0 (Word.count 64 - 1) (ceil (ofCount n).sqrt)).toNat

theorem gridSide_pos (hn : 0 < n) : 0 < gridSide n := by
  have hsq := le_gridSide_sq n
  by_contra hzero
  rw [Nat.eq_zero_of_not_pos hzero] at hsq
  omega

/-- The root of a count lies above all sides that are too short, and not above the side. -/
theorem root_bounds (hn : 0 < n) (h : n < 2 ^ 40) :
    (ofCount n).sqrt.isFinite = true ∧ ((gridSide n - 1 : Nat) : ℚ) < value (ofCount n).sqrt ∧
      value (ofCount n).sqrt ≤ gridSide n := by
  obtain ⟨hfinite, hvalue⟩ := value_ofCount (show n < 2 ^ 53 by omega)
  have hpos : 0 < value (ofCount n) := by
    rw [hvalue]
    exact_mod_cast hn
  obtain ⟨hroot, hroot', herror⟩ := sqrt_spec hfinite hpos
  have hside := gridSide_pos hn
  have hshort : (gridSide n - 1) * (gridSide n - 1) < n :=
    sq_lt_of_lt_sideFrom n 0 (Nat.zero_le _) (Nat.sub_one_lt hside.ne')
  -- the error is less than one, so it does not reach the next square
  rw [hvalue, abs_le] at herror
  obtain ⟨herror, herror'⟩ := herror
  have hsmall : (n : ℚ) / 2 ^ (40 : Nat) < 1 :=
    (div_lt_one (by positivity)).2 (by exact_mod_cast h)
  refine ⟨hroot, ?_, ?_⟩
  · have hshort : ((gridSide n - 1 : Nat) : ℚ) ^ 2 + 1 ≤ n := by
      rw [sq]
      exact_mod_cast hshort
    exact lt_of_pow_lt_pow_left₀ 2 hroot'.le (by linarith)
  · rcases (le_gridSide_sq n).eq_or_lt with hsq | hlt
    · -- the root of a square is that of a double, which is not rounded
      obtain ⟨hfinite', hvalue'⟩ :=
        value_ofCount (show gridSide n < 2 ^ 53 by have := gridSide_le n; omega)
      refine (value_sqrt_of_sq hfinite hfinite' ?_ ?_).le.trans_eq hvalue'
      · rw [hvalue']
        exact_mod_cast hside
      · rw [hvalue, hvalue', sq]
        exact_mod_cast hsq.symm
    · have hlt : (n : ℚ) + 1 ≤ (gridSide n : ℚ) ^ 2 := by
        rw [sq]
        exact_mod_cast hlt
      exact (pow_lt_pow_iff_left₀ hroot'.le (Nat.cast_nonneg _) two_ne_zero).1 (by linarith) |>.le

/-- **The measured side** is the least with enough points. -/
theorem measuredSide_eq (hn : 0 < n) (h : n < 2 ^ 40) : measuredSide n = gridSide n := by
  obtain ⟨hfinite, hlow, hhigh⟩ := root_bounds hn h
  have hside := gridSide_pos hn
  have hceil : ⌈value (ofCount n).sqrt⌉₊ = gridSide n :=
    (Nat.ceil_eq_iff hside.ne').2 ⟨hlow, hhigh⟩
  have hshort := gridSide_le n
  obtain ⟨hfinite', hvalue⟩ :=
    ceil_spec hfinite (lt_of_le_of_lt (Nat.cast_nonneg _) hlow) (by omega)
  have hword : ((gridSide n : Nat) : Int) ≤ Word.count 64 - 1 := by
    have hcount : Word.count 64 = 2 ^ 64 := rfl
    omega
  rw [measuredSide, clampedWhole_of_value hfinite' hside (hceil ▸ hvalue) hword]
  rfl

/-! ## Rows -/

/-- A value and another one of each list stand in the row of the first and the column of the
second. -/
theorem getElem?_rows {α β γ : Type} (f : α → β → γ) (rows : List α) (columns : List β) {i j : Nat}
    {x : α} {y : β} (hx : rows[i]? = some x) (hy : columns[j]? = some y) :
    (rows.flatMap fun x => columns.map (f x))[i * columns.length + j]? = some (f x y) := by
  have hj := (List.getElem?_eq_some_iff.1 hy).1
  induction rows generalizing i with
  | nil => cases hx
  | cons row rows ih =>
    rw [List.flatMap_cons]
    cases i with
    | zero =>
      rw [List.getElem?_append_left (by simpa using hj), Nat.zero_mul, Nat.zero_add,
        List.getElem?_map, hy]
      cases hx
      rfl
    | succ i =>
      rw [List.getElem?_append_right (by rw [List.length_map, Nat.succ_mul]; omega),
        List.length_map, ← ih hx]
      congr 1
      rw [Nat.succ_mul]
      omega

/-- Where point `k` stands: its row and its column. -/
def place (side k : Nat) : Nat × Nat :=
  (k / side, k % side)

theorem place_eq_iff (hside : 0 < side) {row column : Nat} (hcolumn : column < side) :
    place side k = (row, column) ↔ k = row * side + column := by
  rw [place, Prod.mk.injEq]
  constructor
  · rintro ⟨rfl, rfl⟩
    rw [Nat.mul_comm]
    exact (Nat.div_add_mod k side).symm
  · rintro rfl
    rw [Nat.mul_comm, Nat.mul_add_div hside, Nat.div_eq_of_lt hcolumn, Nat.mul_add_mod,
      Nat.mod_eq_of_lt hcolumn]
    exact ⟨rfl, rfl⟩

theorem place_injective (hside : 0 < side) : Function.Injective (place side) := by
  intro j k hjk
  have hcolumn := Nat.mod_lt k hside
  exact ((place_eq_iff hside hcolumn).1 hjk).trans ((place_eq_iff hside hcolumn).1 rfl).symm

/-- The points stand at the first places of the square lattice over an axis, row by row. -/
structure RowMajor (side : Nat) (axis : List Float) (n : Nat) (inputs : List (List Float)) :
    Prop where
  square : axis.length = side
  length : inputs.length = n
  point : ∀ k < n, ∃ x y, axis[(place side k).1]? = some x ∧ axis[(place side k).2]? = some y ∧
    inputs[k]? = some [x, y]
  /-- No place is used twice. -/
  once : ((List.range n).map (place side)).Nodup
  /-- Every row before the last one is complete. -/
  complete : ∀ row < (place side (n - 1)).1, ∀ column < side,
    (row, column) ∈ (List.range n).map (place side)

theorem gridInputs_rowMajor (lo hi : Float) (hn : 0 < n) :
    RowMajor (gridSide n) (linspace lo hi (gridSide n)) n (gridInputs lo hi n) := by
  have hside := gridSide_pos hn
  have hlength := linspace_length lo hi (gridSide n)
  have henough := le_gridSide_sq n
  refine ⟨hlength, gridInputs_length lo hi n, fun k hk => ?_, ?_, fun row hrow column hcolumn => ?_⟩
  · have hrow : k / gridSide n < (linspace lo hi (gridSide n)).length := by
      rw [hlength, Nat.div_lt_iff_lt_mul hside]
      omega
    have hcolumn : k % gridSide n < (linspace lo hi (gridSide n)).length := by
      rw [hlength]
      exact Nat.mod_lt k hside
    have hx := List.getElem?_eq_getElem hrow
    have hy := List.getElem?_eq_getElem hcolumn
    refine ⟨_, _, hx, hy, ?_⟩
    have hrows := getElem?_rows (fun x y => [x, y]) _ _ hx hy
    rw [hlength, Nat.mul_comm, Nat.div_add_mod] at hrows
    rw [gridInputs, List.getElem?_take_of_lt hk]
    exact hrows
  · exact List.nodup_range.map (place_injective hside)
  · refine List.mem_map.2 ⟨row * gridSide n + column, List.mem_range.2 ?_,
      (place_eq_iff hside hcolumn).2 rfl⟩
    -- the next row begins at the last point or before it
    have hnext := (Nat.le_div_iff_mul_le hside).1 (Nat.succ_le_of_lt hrow)
    rw [Nat.succ_mul] at hnext
    omega

/-- **A sweep over two variables** evaluates the two formulas at the first points of the smallest
square lattice over the domain that has enough of them. -/
theorem grid_enumerates (first second : Formula) (policy : FailurePolicy) (hn : 2 ≤ n)
    (hdomain : Settings.validDomain (lo, hi) = true) :
    grid first second (lo, hi) n policy =
        sample first second (gridInputs lo hi n) policy placeCartesian ∧
      (outcomes first second (gridInputs lo hi n)).map Outcome.inputs = gridInputs lo hi n ∧
      RowMajor (gridSide n) (linspace lo hi (gridSide n)) n (gridInputs lo hi n) ∧
      IsLeast {side | n ≤ side * side} (gridSide n) ∧ 2 ≤ gridSide n ∧
      (n < 2 ^ 40 → measuredSide n = gridSide n) := by
  have hpos : 0 < n := by omega
  have hfault : inputFault? n (some (lo, hi)) = none := by
    have hcount : ¬n < minSampleCount := not_lt.2 hn
    rw [inputFault?, if_neg hcount]
    exact if_pos hdomain
  refine ⟨?_, outcomes_inputs first second _, gridInputs_rowMajor lo hi hpos, gridSide_isLeast n,
    two_le_gridSide hn, measuredSide_eq hpos⟩
  rw [grid, hfault]

/-- The formula that is one of the two variables. -/
def coordinate (slot : Fin 2) : Formula :=
  ⟨["x", "y"][slot], ["x", "y"], .variable slot, .ofSeed 7 1⟩

/-- Seven points take two rows of three and begin a third. -/
theorem grid_enumerates_seven :
    grid (coordinate 0) (coordinate 1) (-1.0, 1.0) 7 .drop =
        sample (coordinate 0) (coordinate 1) (gridInputs (-1.0) 1.0 7) .drop placeCartesian ∧
      RowMajor 3 (linspace (-1.0) 1.0 3) 7 (gridInputs (-1.0) 1.0 7) ∧ measuredSide 7 = 3 := by
  have hside : gridSide 7 = 3 := by simp [gridSide, sideFrom]
  obtain ⟨hgrid, -, hrows, -, -, hmeasured⟩ :=
    grid_enumerates (coordinate 0) (coordinate 1) .drop (show 2 ≤ 7 by decide)
      (show Settings.validDomain (-1.0, 1.0) = true by decide +kernel)
  rw [hside] at hrows
  exact ⟨hgrid, hrows, (hmeasured (by decide)).trans hside⟩

end CurveArt.Curve
