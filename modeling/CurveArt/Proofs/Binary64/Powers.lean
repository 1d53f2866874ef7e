import CurveArt.Proofs.Binary64.Operations

/-!
# Powers of ten and relative errors

The double of a power of ten is the one nearest to it, and so is the double of a word; short
multiples of small powers of ten are doubles themselves. `Close c d v` measures how far a number is
from another in units of the last place, relative to its size: products and quotients add up the
errors of their operands, and rounding adds a few units unless the number is among the least.

Main results:

* `rounds_toFloat`, `rounds_tenPow`: the doubles of words and of powers of ten.
* `Close.mul`, `Close.div`, `Rounds.close`: how relative errors grow.
-/

namespace CurveArt.Binary64

open Float.Model (Format UnpackedFloat)

/-! ## Words and powers of ten -/

theorem isFinite_of_unpacked {x : Float} {sign : UnpackedFloat.Sign} {m : Nat} {q : Int}
    {h : 0 < m} (hx : unpacked x = .finite sign m q h) : x.isFinite = true := by
  rw [isFinite_eq, hx]
  rfl

/-- A short natural number is a double, also with some more binary places. -/
theorem exists_natural {c j : Nat} (hpos : 0 < c) (hlt : c < 2 ^ 53) (hj : j ≤ 900) :
    ∃ y : Float, y.isFinite = true ∧ value y = c * 2 ^ j := by
  have hshort := canonical_shiftLeft hpos hlt
  have hcanonical : Canonical (c <<< (52 - c.log2)) (-(52 - c.log2 : Nat) + j) :=
    ⟨hshort.pos, hshort.lt, by omega, by omega, .inr (hshort.full.resolve_left (by omega))⟩
  have hunpacked := unpacked_packed hcanonical .positive hcanonical.pos
  refine ⟨_, isFinite_of_unpacked hunpacked, ?_⟩
  rw [value_eq hunpacked]
  show ((c <<< (52 - c.log2) : Nat) : ℚ) * 2 ^ (-(52 - c.log2 : Nat) + (j : Int)) = _
  rw [zpow_add₀ two_ne_zero, ← mul_assoc, cast_shiftLeft_mul, zpow_natCast]

/-- A natural number that fits a word becomes the double nearest to it. -/
theorem rounds_toFloat {n : Nat} (h : n < 2 ^ 64) : Rounds n n.toUInt64.toFloat := by
  have hword : n.toUInt64.toNat = n := Nat.mod_eq_of_lt h
  have hbound : |((n : Int) : ℚ) * 2 ^ (0 : Int)| < overflowBound := by
    have hlarge : (2 : ℚ) ^ (64 : Nat) ≤ 2 ^ (1023 : Int) := by
      rw [← zpow_natCast]
      exact zpow_le_zpow_right₀ one_le_two (by decide)
    have hn : (n : ℚ) < 2 ^ (64 : Nat) := by exact_mod_cast h
    rw [zpow_zero, mul_one, Int.cast_natCast, Nat.abs_cast]
    exact (hn.trans_le hlarge).trans two_pow_lt_overflowBound
  have hrounds := rounds_normalize n 0 hbound .positive
  rw [zpow_zero, mul_one, Int.cast_natCast] at hrounds
  have hfloat : n.toUInt64.toFloat =
      packed (UnpackedFloat.normalize Format.binary64 n 0 .positive) := by
    show packed (UnpackedFloat.normalize Format.binary64 (n.toUInt64.toNat : Int) 0 .positive) = _
    rw [hword]
  rwa [hfloat]

theorem tenPow_lt_overflowBound {k : Nat} (h : k ≤ 308) : (10 : ℚ) ^ k < overflowBound := by
  have hgap : (10 : ℚ) ^ (308 : Nat) + 2 ^ (970 : Nat) < 2 ^ (1024 : Nat) := by
    exact_mod_cast (by decide +kernel : 10 ^ 308 + 2 ^ 970 < 2 ^ 1024)
  exact (pow_le_pow_right₀ (by norm_num) h).trans_lt (lt_sub_iff_add_lt.2 hgap)

/-- Small powers of ten stand in a table. -/
theorem rounds_tenPow_short {k : Nat} (h : k ≤ 22) :
    Rounds (10 ^ k) (Float.ofScientific 1 false k) := by
  obtain ⟨m, q, hm, hone, hvalue, -⟩ := unpacked_ofNat (c := 1) (by decide) (by decide)
  obtain ⟨m', q', hm', hten, hvalue'⟩ := unpacked_powerOfTen ⟨k, by omega⟩
  have hvalues : value (Nat.toUInt64 1).toFloat *
      value Float.exactlyRepresentablePowersOfTen[(⟨k, by omega⟩ : Fin 23)] = 10 ^ k := by
    rw [value_eq hone, value_eq hten]
    show (m : ℚ) * 2 ^ q * (m' * 2 ^ q') = 10 ^ k
    rw [hvalue, hvalue', Nat.cast_one, one_mul]
  have hbelow : |value (Nat.toUInt64 1).toFloat *
      value Float.exactlyRepresentablePowersOfTen[(⟨k, by omega⟩ : Fin 23)]| < overflowBound := by
    rw [hvalues, abs_of_pos (by positivity)]
    exact tenPow_lt_overflowBound (by omega)
  have hrounds := rounds_mul (isFinite_of_unpacked hone) (isFinite_of_unpacked hten) hbelow
  rw [hvalues] at hrounds
  rw [Float.ofScientific, dif_pos ⟨by decide, h⟩]
  exact hrounds

/-- The other powers of ten are a product of exact numbers that is rounded once. -/
theorem rounds_tenPow_long {k : Nat} (hlong : 22 < k) (h : k ≤ 308) :
    Rounds (10 ^ k) (Float.ofScientific 1 false k) := by
  have hone : (1 : ℚ) ≤ 10 ^ k := one_le_pow₀ (by norm_num)
  obtain ⟨m, q, hv⟩ := exists_roundsTo (v := (10 : ℚ) ^ k)
    (((zpow_lt_one_of_neg₀ one_lt_two (by decide))).trans_le hone) (tenPow_lt_overflowBound h)
  have hrounds := rounds_finite hv .positive hv.canonical.pos
  have hten : 0 < 10 ^ k := Nat.pow_pos (by decide)
  have hlog : 52 ≤ (1 <<< 53 * 10 ^ k).log2 := by
    rw [Nat.le_log2 (Nat.mul_pos (by decide) hten).ne']
    exact le_trans (by decide) (Nat.le_mul_of_pos_right _ hten)
  have hvalue : ((1 <<< 53 : Nat) : ℚ) * 2 ^ (-(53 : Int)) * ((10 ^ k : Nat) * 2 ^ (0 : Int)) =
      10 ^ k := by
    have := cast_shiftLeft_mul 1 53
    push_cast at this ⊢
    rw [this]
    simp
  rw [← hvalue] at hv
  -- the exponent is neither so great nor so small that nothing is computed
  have hbits : (2 : Int) ^ Format.binary64.exponentBits = 2048 := rfl
  have hmodel : UnpackedFloat.ofScientific Format.binary64 1 (k : Int) =
      .finite .positive m q hv.canonical.pos := by
    rw [UnpackedFloat.ofScientific, dif_neg one_ne_zero, hbits, if_neg (by omega),
      if_neg (by omega), if_pos (Int.natCast_nonneg k)]
    exact mul_eq (by decide) hten hlog hv
  rw [Float.ofScientific, dif_neg fun hand => absurd hand.2 (not_le.2 hlong)]
  show Rounds (10 ^ k) (packed (UnpackedFloat.ofScientific Format.binary64 1 (k : Int)))
  rw [hmodel]
  exact hrounds

/-- **Powers of ten as doubles.** -/
theorem rounds_tenPow {k : Nat} (h : k ≤ 308) : Rounds (10 ^ k) (Float.ofScientific 1 false k) := by
  rcases Nat.lt_or_ge 22 k with hlong | hshort
  · exact rounds_tenPow_long hlong h
  · exact rounds_tenPow_short hshort

/-! ## Relative errors -/

/-- The distance between one and the next double. -/
def unit : ℚ := 1 / 2 ^ (52 : Nat)

/-- The number `v` is `d` with a relative error of at most `c` units. -/
structure Close (c d v : ℚ) : Prop where
  lower : d * (1 - c * unit) ≤ v
  upper : v ≤ d * (1 + c * unit)

variable {c c' d d' v v' : ℚ} {x y : Float}

theorem unit_pos : 0 < unit := by
  rw [unit]
  positivity

theorem mul_unit_le (hc : c ≤ 100) : c * unit ≤ 1 / 1000000 := by
  rw [unit]
  norm_num
  linarith

theorem Close.pos (h : Close c d v) (hd : 0 < d) (hc : c ≤ 100) : 0 < v := by
  have hsmall := mul_unit_le hc
  exact lt_of_lt_of_le (mul_pos hd (by linarith)) h.lower

theorem Close.mul (h : Close c d v) (h' : Close c' d' v') (hd : 0 < d) (hd' : 0 < d')
    (hc : 0 ≤ c) (hc' : 0 ≤ c') (hle : c ≤ 20) (hle' : c' ≤ 20) :
    Close (c + c' + 1) (d * d') (v * v') := by
  have hu := unit_pos
  have hsmall := mul_unit_le (c := c) (by linarith)
  have hsmall' := mul_unit_le (c := c') (by linarith)
  have hv := h.pos hd (by linarith)
  have hv' := h'.pos hd' (by linarith)
  have hproduct : 0 ≤ c * unit * (c' * unit) := by positivity
  have hsquare : c * unit * (c' * unit) ≤ unit := by
    calc c * unit * (c' * unit) ≤ 1 / 1000000 * (20 * unit) := by gcongr
      _ ≤ unit := by linarith
  constructor
  · calc d * d' * (1 - (c + c' + 1) * unit)
        ≤ d * d' * ((1 - c * unit) * (1 - c' * unit)) := by
          gcongr
          linarith
      _ = d * (1 - c * unit) * (d' * (1 - c' * unit)) := by ring
      _ ≤ v * v' := mul_le_mul h.lower h'.lower (mul_nonneg hd'.le (by linarith)) hv.le
  · calc v * v' ≤ d * (1 + c * unit) * (d' * (1 + c' * unit)) :=
          mul_le_mul h.upper h'.upper hv'.le (by positivity)
      _ = d * d' * ((1 + c * unit) * (1 + c' * unit)) := by ring
      _ ≤ d * d' * (1 + (c + c' + 1) * unit) := by
          gcongr
          linarith

theorem Close.inv (h : Close c d v) (hd : 0 < d) (hc : 0 ≤ c) (hle : c ≤ 20) :
    Close (c + 1) d⁻¹ v⁻¹ := by
  have hu := unit_pos
  have hsmall := mul_unit_le (c := c) (by linarith)
  have hsmall' := mul_unit_le (c := c + 1) (by linarith)
  have hv := h.pos hd (by linarith)
  have hproduct : 0 ≤ c * unit * ((c + 1) * unit) := by positivity
  have hsquare : c * unit * ((c + 1) * unit) ≤ unit := by
    calc c * unit * ((c + 1) * unit) ≤ 1 / 1000000 * (21 * unit) := by
          gcongr
          linarith
      _ ≤ unit := by linarith
  constructor
  · rw [inv_mul_le_iff₀ hd, ← div_eq_mul_inv, le_div_iff₀ hv]
    calc (1 - (c + 1) * unit) * v ≤ (1 - (c + 1) * unit) * (d * (1 + c * unit)) :=
          mul_le_mul_of_nonneg_left h.upper (by linarith)
      _ = d * ((1 - (c + 1) * unit) * (1 + c * unit)) := by ring
      _ ≤ d := mul_le_of_le_one_right hd.le (by linarith)
  · rw [le_inv_mul_iff₀ hd, ← div_eq_mul_inv, div_le_iff₀ hv]
    calc d ≤ d * ((1 + (c + 1) * unit) * (1 - c * unit)) :=
          le_mul_of_one_le_right hd.le (by linarith)
      _ = (1 + (c + 1) * unit) * (d * (1 - c * unit)) := by ring
      _ ≤ (1 + (c + 1) * unit) * v := mul_le_mul_of_nonneg_left h.lower (by positivity)

theorem Close.div (h : Close c d v) (h' : Close c' d' v') (hd : 0 < d) (hd' : 0 < d')
    (hc : 0 ≤ c) (hc' : 0 ≤ c') (hle : c ≤ 19) (hle' : c' ≤ 19) :
    Close (c + c' + 2) (d / d') (v / v') := by
  have hinv := h'.inv hd' hc' (by linarith)
  have hclose := h.mul hinv hd (inv_pos.2 hd') hc (by linarith) (by linarith) (by linarith)
  rw [show c + (c' + 1) + 1 = c + c' + 2 by ring] at hclose
  exact hclose

theorem Close.weaken (h : Close c d v) (hd : 0 < d) (hle : c ≤ c') : Close c' d v := by
  have hu := unit_pos
  refine ⟨le_trans ?_ h.lower, h.upper.trans ?_⟩ <;> gcongr

theorem Close.trans (h : Close c d v) (h' : Close c' v v') (hd : 0 < d)
    (hc : 0 ≤ c) (hc' : 0 ≤ c') (hle : c ≤ 20) (hle' : c' ≤ 20) : Close (c + c' + 1) d v' := by
  have hone : Close 0 d d := ⟨by linarith, by linarith⟩
  have hv := h.pos hd (by linarith)
  have hratio : Close c' 1 (v' / v) := by
    constructor
    · rw [one_mul, le_div_iff₀ hv, mul_comm]
      exact h'.lower
    · rw [one_mul, div_le_iff₀ hv, mul_comm]
      exact h'.upper
  have hproduct := h.mul hratio hd one_pos hc hc' hle hle'
  rwa [mul_one, mul_div_cancel₀ v' hv.ne'] at hproduct

theorem close_of_abs_le (h : |v - d| ≤ c * unit * d) : Close c d v := by
  obtain ⟨hlow, hhigh⟩ := abs_le.1 h
  constructor <;> linarith

/-- Rounding a number that is not among the least changes little of it. -/
theorem Rounds.close (h : Rounds v x) (hlow : 2 ^ (-1024 : Int) ≤ v) (hhigh : v < overflowBound) :
    Close (5 / 2) v (value x) := by
  have hu := unit_pos
  have hv : 0 < v := lt_of_lt_of_le (by positivity) hlow
  have herror := h.error_le_part (by rwa [abs_of_pos hv])
  have hleast : (2 : ℚ) ^ (-1075 : Int) ≤ 2 * unit * v := by
    calc (2 : ℚ) ^ (-1075 : Int) = 2 * unit * 2 ^ (-1024 : Int) := by
          rw [unit, show (-1075 : Int) = -51 + -1024 by rfl, zpow_add₀ two_ne_zero]
          norm_num
      _ ≤ 2 * unit * v := mul_le_mul_of_nonneg_left hlow (by positivity)
  have hpart : v / 2 ^ (53 : Nat) = unit / 2 * v := by
    rw [unit]
    ring
  rw [abs_of_pos hv, hpart, abs_sub_comm] at herror
  exact close_of_abs_le (by linarith)

end CurveArt.Binary64
