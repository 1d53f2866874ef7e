import CurveArt.Proofs.Binary64.Rounding

/-!
# Decimal fractions as doubles

A decimal fraction `c / 10^p` is turned into a double on one of two ways. A short coefficient over a
small power of ten is divided as doubles, since both are exact; everything else is divided in exact
arithmetic. Either way the result is rounded once, so it is the double that the fraction rounds to.

Main results:

* `unpacked_ofNat`, `unpacked_powerOfTen`: the operands of the first way are exact.
* `ofScientific_eq`: the double of a decimal fraction.
-/

namespace CurveArt.Binary64

open Float.Model (Format UnpackedFloat totalExponent)
open Float.Model.UnpackedFloat

theorem div_eq_packed (x y : Float) :
    x / y = packed (UnpackedFloat.div Format.binary64 (unpacked x) (unpacked y)) :=
  rfl

theorem mul_eq_packed (x y : Float) :
    x * y = packed (UnpackedFloat.mul Format.binary64 (unpacked x) (unpacked y)) :=
  rfl

/-- Filling a short natural number up to fifty-three bits. -/
theorem canonical_shiftLeft {c : Nat} (hpos : 0 < c) (hlt : c < 2 ^ 53) :
    Canonical (c <<< (52 - c.log2)) (-(52 - c.log2 : Nat)) := by
  have hlog : c.log2 < 53 := (Nat.log2_lt hpos.ne').2 hlt
  have hlog' : (c <<< (52 - c.log2)).log2 = 52 := by
    rw [log2_shiftLeft hpos]
    omega
  have hshifted : 0 < c <<< (52 - c.log2) := by
    rw [Nat.shiftLeft_eq]
    positivity
  obtain ⟨hlow, hhigh⟩ := (Nat.log2_eq_iff hshifted.ne').1 hlog'
  exact ⟨hshifted, hhigh, by omega, by omega, .inr hlow⟩

theorem cast_shiftLeft_mul (c n : Nat) : ((c <<< n : Nat) : ℚ) * 2 ^ (-(n : Int)) = c := by
  rw [Nat.shiftLeft_eq, zpow_neg, zpow_natCast]
  push_cast
  exact mul_inv_cancel_right₀ (by positivity) _

/-- A natural number of at most fifty-three bits is a double, with a full mantissa. -/
theorem unpacked_ofNat {c : Nat} (hpos : 0 < c) (hlt : c < 2 ^ 53) :
    ∃ m q h, unpacked c.toUInt64.toFloat = .finite .positive m q h ∧ (m : ℚ) * 2 ^ q = c ∧
      2 ^ 52 ≤ m := by
  have hcanonical := canonical_shiftLeft hpos hlt
  have hvalue := cast_shiftLeft_mul c (52 - c.log2)
  have hrounds : RoundsTo ((c : ℚ) * 2 ^ (0 : Int)) (c <<< (52 - c.log2))
      (-(52 - c.log2 : Nat)) := by
    have hself := hcanonical.roundsTo
    rwa [hvalue, ← mul_one (c : ℚ), ← zpow_zero (2 : ℚ)] at hself
  have hword : c.toUInt64.toNat = c := Nat.mod_eq_of_lt (hlt.trans (by decide))
  have hcompare : compare ((c : Nat) : Int) 0 = .gt := by
    rw [Int.compare_eq_gt]
    omega
  have hfloat :
      c.toUInt64.toFloat = packed (UnpackedFloat.round Format.binary64 .positive c 0) := by
    show packed (UnpackedFloat.normalize Format.binary64 (c.toUInt64.toNat : Int) 0 .positive) = _
    rw [hword, UnpackedFloat.normalize, hcompare]
    rfl
  have hlog : c.log2 < 53 := (Nat.log2_lt hpos.ne').2 hlt
  refine ⟨_, _, hcanonical.pos, ?_, hvalue, ?_⟩
  · rw [hfloat, round_eq hpos 0 hrounds .positive]
    exact unpacked_packed hcanonical .positive hcanonical.pos
  · rw [← Nat.le_log2 hcanonical.pos.ne', log2_shiftLeft hpos]
    omega

/-- Whether a double is `10^i`. -/
def isPowerOfTen (x : Float) (i : Nat) : Bool :=
  match unpacked x with
  | .finite .positive m q _ => m * 2 ^ q.toNat == 10 ^ i * 2 ^ (-q).toNat
  | _ => false

theorem isPowerOfTen_table :
    ∀ i : Fin 23, isPowerOfTen Float.exactlyRepresentablePowersOfTen[i] i = true := by
  decide +kernel

/-- The powers of ten up to the twenty-second are doubles. -/
theorem unpacked_powerOfTen (i : Fin 23) :
    ∃ m q h, unpacked Float.exactlyRepresentablePowersOfTen[i] = .finite .positive m q h ∧
      (m : ℚ) * 2 ^ q = 10 ^ (i : Nat) := by
  have htable := isPowerOfTen_table i
  rw [isPowerOfTen] at htable
  split at htable
  · next m q h hx =>
    refine ⟨m, q, h, hx, ?_⟩
    have hvalue : (m : ℚ) * 2 ^ q.toNat = 10 ^ (i : Nat) * 2 ^ (-q).toNat := by
      exact_mod_cast beq_iff_eq.1 htable
    have hq : (2 : ℚ) ^ q * 2 ^ (-q).toNat = 2 ^ q.toNat := by
      rw [← zpow_natCast, ← zpow_natCast, ← zpow_add₀ two_ne_zero]
      congr 1
      omega
    rw [← hq, ← mul_assoc] at hvalue
    exact mul_right_cancel₀ (by positivity) hvalue
  · cases htable

variable {c p m : Nat} {q : Int}

/-- What rounds to a double is not much smaller than the least of them. -/
theorem RoundsTo.least_le {v : ℚ} (h : RoundsTo v m q) : (2 : ℚ) ^ (-1075 : Int) ≤ v := by
  have hpos : (0 : ℚ) < 2 ^ q := by positivity
  have hm : (1 : ℚ) ≤ m := by exact_mod_cast h.canonical.pos
  have hlower := h.nearest.lower
  have hhalf : 1 / 2 * 2 ^ q ≤ v := by
    rw [← le_div_iff₀ hpos]
    linarith
  have hleast : (2 : ℚ) ^ (-1074 : Int) ≤ 2 ^ q :=
    zpow_le_zpow_right₀ one_lt_two.le h.canonical.least
  have hsplit : (2 : ℚ) ^ (-1075 : Int) = 1 / 2 * 2 ^ (-1074 : Int) := by
    rw [show (-1075 : Int) = -1 + -1074 by rfl, zpow_add₀ two_ne_zero]
    norm_num
  linarith

/-- A fraction that rounds to a double is not settled by its size alone. -/
theorem RoundsTo.places_le (hv : RoundsTo ((c : ℚ) / 10 ^ p) m q) : p ≤ 2048 + c.log2 := by
  have hleast := hv.least_le
  -- a place more takes at least three bits off the fraction, and there are not so many
  have hten : (8 : ℚ) ^ p ≤ 10 ^ p := pow_le_pow_left₀ (by norm_num) (by norm_num) p
  have hbits : (c : ℚ) < 2 ^ (c.log2 + 1) := by exact_mod_cast Nat.lt_log2_self
  rw [le_div_iff₀ (by positivity)] at hleast
  have hlt : (2 : ℚ) ^ (-1075 + 3 * (p : Int)) < 2 ^ ((c.log2 + 1 : Nat) : Int) := by
    calc (2 : ℚ) ^ (-1075 + 3 * (p : Int)) = 2 ^ (-1075 : Int) * 8 ^ p := by
          rw [zpow_add₀ two_ne_zero, zpow_mul, zpow_natCast]
          norm_num
      _ ≤ 2 ^ (-1075 : Int) * 10 ^ p := mul_le_mul_of_nonneg_left hten (by positivity)
      _ ≤ c := hleast
      _ < 2 ^ (c.log2 + 1) := hbits
      _ = 2 ^ ((c.log2 + 1 : Nat) : Int) := (zpow_natCast _ _).symm
  have := (zpow_lt_zpow_iff_right₀ (one_lt_two (α := ℚ))).1 hlt
  omega

/-- A short coefficient over a small power of ten. -/
theorem quotient_eq (hpos : 0 < c) (hlt : c < 2 ^ 53) (i : Fin 23)
    (hv : RoundsTo ((c : ℚ) / 10 ^ (i : Nat)) m q) :
    c.toUInt64.toFloat / Float.exactlyRepresentablePowersOfTen[i] =
      ofParts m q hv.canonical.pos := by
  obtain ⟨m₁, e₁, h₁, hc, hvalue₁, -⟩ := unpacked_ofNat hpos hlt
  obtain ⟨m₂, e₂, h₂, hten, hvalue₂⟩ := unpacked_powerOfTen i
  rw [← hvalue₁, ← hvalue₂] at hv
  rw [div_eq_packed, hc, hten, div_eq h₁ h₂ hv]
  rfl

/-- A short coefficient itself. -/
theorem product_one_eq (hpos : 0 < c) (hlt : c < 2 ^ 53) (hv : RoundsTo (c : ℚ) m q) :
    c.toUInt64.toFloat * Float.exactlyRepresentablePowersOfTen[(0 : Fin 23)] =
      ofParts m q hv.canonical.pos := by
  obtain ⟨m₁, e₁, h₁, hc, hvalue₁, hfull⟩ := unpacked_ofNat hpos hlt
  obtain ⟨m₂, e₂, h₂, hone, hvalue₂⟩ := unpacked_powerOfTen 0
  have hvalue : (m₁ : ℚ) * 2 ^ e₁ * (m₂ * 2 ^ e₂) = c := by
    rw [hvalue₁, hvalue₂]
    simp
  rw [← hvalue] at hv
  have hbits : 52 ≤ (m₁ * m₂).log2 := by
    rw [Nat.le_log2 (Nat.mul_pos h₁ h₂).ne']
    exact hfull.trans (Nat.le_mul_of_pos_right m₁ h₂)
  rw [mul_eq_packed, hc, hone, mul_eq h₁ h₂ hbits hv]
  rfl

/-- The exact way. -/
theorem model_ofScientific_eq (hpos : 0 < c) (hv : RoundsTo ((c : ℚ) / 10 ^ p) m q) :
    UnpackedFloat.ofScientific Format.binary64 c (-(p : Int)) =
      .finite .positive m q hv.canonical.pos := by
  have hplaces := hv.places_le
  have hbits : (2 : Int) ^ Format.binary64.exponentBits = 2048 := rfl
  rw [UnpackedFloat.ofScientific, dif_neg hpos.ne', hbits, if_neg (by omega), if_neg (by omega)]
  -- without places the coefficient is multiplied by one, after it has been made long enough
  by_cases hp : p = 0
  · subst hp
    have hlong : 0 < c <<< 53 := by
      rw [Nat.shiftLeft_eq]
      positivity
    have hvalue : ((c <<< 53 : Nat) : ℚ) * 2 ^ (-(53 : Int)) * ((10 ^ 0 : Nat) * 2 ^ (0 : Int)) =
        (c : ℚ) / 10 ^ 0 := by
      have := cast_shiftLeft_mul c 53
      push_cast at this ⊢
      rw [this]
      simp
    rw [← hvalue] at hv
    have hlog : 52 ≤ (c <<< 53 * 10 ^ 0).log2 := by
      rw [pow_zero, mul_one, log2_shiftLeft hpos]
      omega
    rw [if_pos (by omega)]
    exact mul_eq hlong (by decide) hlog hv
  · have hvalue :
        (c : ℚ) * 2 ^ (0 : Int) / ((10 ^ p : Nat) * 2 ^ (0 : Int)) = (c : ℚ) / 10 ^ p := by
      simp
    rw [← hvalue] at hv
    rw [if_neg (by omega)]
    simp only [neg_neg, Int.toNat_natCast]
    exact div_eq hpos (Nat.pow_pos (by decide)) hv

/-- **The double of a decimal fraction** is the one that the fraction rounds to. -/
theorem ofScientific_eq (hpos : 0 < c) (hv : RoundsTo ((c : ℚ) / 10 ^ p) m q) :
    Float.ofScientific c (decide (0 < p)) p = ofParts m q hv.canonical.pos := by
  rw [Float.ofScientific]
  split
  · -- both operands are exact, so only the quotient is rounded
    next hshort =>
    by_cases hp : 0 < p
    · rw [decide_eq_true hp, if_pos rfl]
      exact quotient_eq hpos hshort.1 ⟨p, by omega⟩ hv
    · obtain rfl : p = 0 := by omega
      rw [pow_zero, div_one] at hv
      rw [decide_eq_false hp, if_neg Bool.false_ne_true]
      exact product_one_eq hpos hshort.1 hv
  · have hexponent :
        (if decide (0 < p) = true then Int.negOfNat p else Int.ofNat p) = -(p : Int) := by
      by_cases hp : 0 < p
      · rw [decide_eq_true hp, if_pos rfl, Int.negOfNat_eq]
        rfl
      · obtain rfl : p = 0 := by omega
        rfl
    show packed (UnpackedFloat.ofScientific Format.binary64 c _) = _
    rw [hexponent, model_ofScientific_eq hpos hv]
    rfl

end CurveArt.Binary64
