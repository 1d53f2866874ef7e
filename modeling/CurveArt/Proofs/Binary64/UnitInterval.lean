import CurveArt.Proofs.Binary64.Operations

/-!
# The unit interval

Quotients of a number by one that is no less, products of such quotients and what they leave of one
are doubles between zero and one.

Main results: `inUnit_of_rounds`, `quotient_inUnit`, `InUnit.mul`, `InUnit.rest`.
-/

namespace CurveArt.Binary64

variable {x y t u : Float} {w : ℚ}

/-- A double in `[0, 1]`. -/
structure InUnit (x : Float) : Prop where
  isFinite : x.isFinite = true
  nonneg : 0 ≤ value x
  le_one : value x ≤ 1

theorem value_one : value 1.0 = 1 := by
  rw [value_power (show unpacked 1.0 = .finite .positive (2 ^ 52) (-52) (by decide) from rfl)]
  rfl

theorem lt_overflowBound_of_le_two (hlow : 0 ≤ w) (hhigh : w ≤ 2) : |w| < overflowBound := by
  rw [abs_of_nonneg hlow]
  calc w ≤ 2 ^ (1 : Int) := hhigh
    _ ≤ 2 ^ (1023 : Int) := zpow_le_zpow_right₀ one_le_two (by decide)
    _ < overflowBound := two_pow_lt_overflowBound

theorem inUnit_of_rounds (h : Rounds w x) (hlow : 0 ≤ w) (hhigh : w ≤ 1) : InUnit x where
  isFinite := h.isFinite
  nonneg := h.nonneg hlow
  le_one := by
    rw [← value_one] at hhigh ⊢
    exact h.le rfl hhigh

/-- Half of the least step above one is rounded down. -/
theorem rounds_one : Rounds (1 + 2 ^ (-53 : Int)) 1.0 := by
  have hc : Canonical (2 ^ 52) (-52) :=
    ⟨by decide, by decide, by decide, by decide, .inr le_rfl⟩
  have hsteps : (1 + 2 ^ (-53 : Int) : ℚ) / 2 ^ (-52 : Int) = 2 ^ (52 : Nat) + 1 / 2 := by
    norm_num
  have hrounds : RoundsTo (1 + 2 ^ (-53 : Int)) (2 ^ 52) (-52) := by
    refine ⟨hc, ⟨?_, ?_, fun hodd => absurd hodd (by decide)⟩, fun _ _ => ?_⟩ <;>
      rw [hsteps] <;> norm_num
  exact rounds_finite hrounds .positive hc.pos

theorem le_one_of_rounds (h : Rounds w x) (hhigh : w < 1 + 2 ^ (-53 : Int)) : value x ≤ 1 := by
  rw [← value_one]
  exact h.mono rounds_one hhigh

theorem quotient_inUnit (hx : x.isFinite = true) (hy : y.isFinite = true) (hnonneg : 0 ≤ value x)
    (hle : value x ≤ value y) (hpos : 0 < value y) : InUnit (x / y) := by
  have hlow : 0 ≤ value x / value y := div_nonneg hnonneg hpos.le
  have hhigh : value x / value y ≤ 1 := (div_le_one hpos).2 hle
  exact inUnit_of_rounds
    (rounds_div hx hy hpos.ne' (lt_overflowBound_of_le_two hlow (by linarith))) hlow hhigh

/-- A product is at most each of its factors. -/
theorem InUnit.mul (hu : InUnit u) (ht : InUnit t) :
    InUnit (u * t) ∧ value (u * t) ≤ value t := by
  have hlow : 0 ≤ value u * value t := mul_nonneg hu.nonneg ht.nonneg
  have hhigh : value u * value t ≤ value t := mul_le_of_le_one_left ht.nonneg hu.le_one
  have hone := hhigh.trans ht.le_one
  have hrounds := rounds_mul hu.isFinite ht.isFinite
    (lt_overflowBound_of_le_two hlow (by linarith))
  exact ⟨inUnit_of_rounds hrounds hlow hone, hrounds.le ht.isFinite hhigh⟩

/-- What is left of one, with half of the least step below one as the error. -/
theorem InUnit.rest (ht : InUnit t) :
    InUnit (1.0 - t) ∧ value (1.0 - t) ≤ 1 - value t + 2 ^ (-54 : Int) := by
  have hlow := ht.nonneg
  have hhigh := ht.le_one
  have hbound : |1 - value t| < overflowBound :=
    lt_overflowBound_of_le_two (by linarith) (by linarith)
  have hrounds : Rounds (1 - value t) (1.0 - t) := by
    rw [← value_one] at hbound ⊢
    exact rounds_sub rfl ht.isFinite hbound
  have herror : |1 - value t - value (1.0 - t)| ≤ 2 ^ (0 - 54 : Int) := by
    refine hrounds.error_le (by decide) hbound ?_
    rw [abs_of_nonneg (by linarith), zpow_zero]
    linarith
  obtain ⟨herror', -⟩ := abs_le.1 herror
  exact ⟨inUnit_of_rounds hrounds (by linarith) (by linarith), by linarith⟩

end CurveArt.Binary64
