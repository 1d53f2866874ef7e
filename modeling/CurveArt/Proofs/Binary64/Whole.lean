import CurveArt.Binary64.Integral
import CurveArt.Proofs.Binary64.Operations

/-!
# Whole numbers next to a double

The whole number next to a double is decided on its significand and exponent, and is the one next
to the number that these two stand for.

Main results:

* `wholeMagnitude_up`, `wholeMagnitude_towardZero`: the two whole numbers next to a magnitude.
* `ceil_spec`: a double rounded up.
* `clampedWhole_of_value`: a whole double as a whole number.
* `exists_multiple`, `eq_of_far`: doubles that are further apart than whole numbers.
-/

namespace CurveArt.Binary64

variable {x : Float} {m n : Nat} {q : Int}

/-- A number with a negative exponent as a quotient of natural numbers. -/
theorem scaled_eq_quotient (m : Nat) (hq : q < 0) :
    (m : ℚ) * 2 ^ q = (m : ℚ) / ((2 ^ (-q).toNat : Nat) : ℚ) := by
  have hpower : (2 : ℚ) ^ (((-q).toNat : Nat) : Int) = 2 ^ (-q) := by
    rw [show (((-q).toNat : Nat) : Int) = -q by omega]
  rw [div_eq_mul_inv, Nat.cast_pow, Nat.cast_ofNat, ← zpow_natCast, hpower, zpow_neg, inv_inv]

theorem scaled_eq_natCast (m : Nat) (hq : 0 ≤ q) :
    (m : ℚ) * 2 ^ q = ((m * 2 ^ q.toNat : Nat) : ℚ) := by
  have hpower : (2 : ℚ) ^ ((q.toNat : Nat) : Int) = 2 ^ q := by
    rw [show ((q.toNat : Nat) : Int) = q by omega]
  rw [Nat.cast_mul, Nat.cast_pow, Nat.cast_ofNat, ← zpow_natCast, hpower]

/-- Without its fraction a magnitude is the greatest whole number up to it. -/
theorem wholeMagnitude_towardZero (negative : Bool) (m : Nat) (q : Int) :
    wholeMagnitude .towardZero negative m q = ⌊(m : ℚ) * 2 ^ q⌋₊ := by
  rw [wholeMagnitude]
  split
  · next hq =>
    rw [scaled_eq_natCast m hq, Nat.floor_natCast]
    rfl
  · next hq =>
    rw [scaled_eq_quotient m (not_le.1 hq), Nat.floor_div_eq_div]
    rfl

theorem div_add_rest_le {unit : Nat} (h : 0 < unit) (m c : Nat) :
    m / unit + (if (m % unit != 0) = true then 1 else 0) ≤ c ↔ m ≤ c * unit := by
  rcases Nat.eq_zero_or_pos (m % unit) with hrest | hrest
  · obtain ⟨k, rfl⟩ := Nat.dvd_of_mod_eq_zero hrest
    rw [hrest, Nat.mul_div_cancel_left k h, Nat.mul_comm, Nat.mul_le_mul_right_iff h]
    rfl
  · have hne : m ≠ c * unit := by
      rintro rfl
      rw [Nat.mul_mod_left] at hrest
      exact lt_irrefl 0 hrest
    rw [if_pos (bne_iff_ne.2 hrest.ne'), Nat.add_one_le_iff, Nat.div_lt_iff_lt_mul h]
    exact ⟨Nat.le_of_lt, fun hle => lt_of_le_of_ne hle hne⟩

/-- A rest that is dropped upwards takes the magnitude to the least whole number from it on. -/
theorem wholeMagnitude_up (m : Nat) (q : Int) :
    wholeMagnitude .up false m q = ⌈(m : ℚ) * 2 ^ q⌉₊ := by
  rw [wholeMagnitude]
  split
  · next hq =>
    rw [scaled_eq_natCast m hq, Nat.ceil_natCast]
    rfl
  · next hq =>
    rw [scaled_eq_quotient m (not_le.1 hq)]
    show m / 2 ^ (-q).toNat + (if (m % 2 ^ (-q).toNat != 0) = true then 1 else 0) = _
    have hunit : 0 < 2 ^ (-q).toNat := Nat.two_pow_pos _
    generalize 2 ^ (-q).toNat = unit at *
    refine eq_of_forall_ge_iff fun c => ?_
    rw [Nat.ceil_le, div_le_iff₀ (by exact_mod_cast hunit), div_add_rest_le hunit]
    exact_mod_cast Iff.rfl

/-- A positive double in parts, as it is decoded. -/
theorem decode_of_value_pos (hx : x.isFinite = true) (hpos : 0 < value x) :
    ∃ m q, decode x = .finite false m q ∧ value x = m * 2 ^ q := by
  obtain ⟨m, q, hm, hunpacked, -, hvalue⟩ := unpacked_of_value_pos hx hpos
  refine ⟨m, q, ?_, hvalue⟩
  rw [decode_eq, hunpacked]
  rfl

/-- **Rounding up** gives the least whole number from a double on, where that is a short one. -/
theorem ceil_spec (hx : x.isFinite = true) (hpos : 0 < value x) (hn : ⌈value x⌉₊ < 2 ^ 53) :
    (ceil x).isFinite = true ∧ value (ceil x) = ⌈value x⌉₊ := by
  obtain ⟨m, q, hdecode, hvalue⟩ := decode_of_value_pos hx hpos
  rw [ceil, toIntegral, hdecode]
  dsimp only
  split
  · next hq =>
    refine ⟨hx, ?_⟩
    rw [hvalue, scaled_eq_natCast m hq, Nat.ceil_natCast]
  · rw [wholeMagnitude_up, ← hvalue]
    exact value_ofCount hn

/-- **A whole double** as a whole number between two bounds. -/
theorem clampedWhole_of_value {greatest : Int} (hx : x.isFinite = true) (hn : 0 < n)
    (hvalue : value x = n) (hgreatest : n ≤ greatest) : clampedWhole 0 greatest x = n := by
  obtain ⟨m, q, hdecode, hparts⟩ :=
    decode_of_value_pos hx (hvalue ▸ (by exact_mod_cast hn : (0 : ℚ) < n))
  rw [clampedWhole, hdecode]
  dsimp only
  rw [wholeMagnitude_towardZero, ← hparts, hvalue, Nat.floor_natCast, if_neg Bool.false_ne_true]
  omega

/-! ## Great doubles -/

/-- Numbers with more than fifty-three places have an exponent for those that are too many. -/
theorem Canonical.lt_exponent {k : Nat} (h : Canonical m q)
    (hlarge : 2 ^ (53 + k) ≤ (m : ℚ) * 2 ^ q) : (k : Int) < q := by
  have hm : (m : ℚ) < 2 ^ (53 : Nat) := by exact_mod_cast h.lt
  have hless : (2 : ℚ) ^ (53 : Nat) * 2 ^ (k : Int) < 2 ^ (53 : Nat) * 2 ^ q := by
    calc (2 : ℚ) ^ (53 : Nat) * 2 ^ (k : Int) = 2 ^ (53 + k) := by rw [zpow_natCast, pow_add]
      _ ≤ m * 2 ^ q := hlarge
      _ < 2 ^ (53 : Nat) * 2 ^ q := mul_lt_mul_of_pos_right hm (by positivity)
  exact (zpow_lt_zpow_iff_right₀ (one_lt_two (α := ℚ))).1
    (lt_of_mul_lt_mul_left hless (by positivity))

/-- Doubles with more than fifty-three places are multiples of a power of two. -/
theorem exists_multiple {k : Nat} (hx : x.isFinite = true) (h : 2 ^ (53 + k) ≤ |value x|) :
    ∃ n : Int, value x = n * 2 ^ (k + 1) := by
  rcases cases_of_isFinite hx with ⟨s, hx⟩ | ⟨s, m, q, hm, hx, hc⟩
  · have hlarge : (0 : ℚ) < 2 ^ (53 + k) := by positivity
    rw [value_eq hx, valueOf_zero, abs_zero] at h
    linarith
  · have hq := hc.lt_exponent (h.trans_eq (hc.abs_value hx))
    obtain ⟨j, rfl⟩ : ∃ j : Nat, q = j + (k + 1) := ⟨(q - (k + 1)).toNat, by omega⟩
    have hsplit : (2 : ℚ) ^ ((j : Int) + (k + 1)) = ((2 ^ j : Nat) : ℚ) * 2 ^ (k + 1) := by
      rw [zpow_add₀ two_ne_zero, zpow_natCast, ← Nat.cast_succ, zpow_natCast]
      push_cast
      rfl
    rw [value_eq hx, valueOf, hsplit]
    cases s with
    | positive => exact ⟨m * 2 ^ j, by push_cast [signed]; ring⟩
    | negative => exact ⟨-(m * 2 ^ j), by push_cast [signed]; ring⟩

/-- Where doubles are four units apart, a number within one unit of a double is rounded to it. -/
theorem eq_of_far {w : ℚ} {y : Float} (hx : x.isFinite = true) (hfar : 2 ^ (55 : Nat) ≤ |value x|)
    (h : Rounds w y) (hw : |w - value x| ≤ 1) : y = x := by
  have hnear := (h.nearest x hx).trans hw
  have hdistance : |value y - value x| ≤ 2 := by
    calc |value y - value x| = |(w - value x) - (w - value y)| := by ring_nf
      _ ≤ |w - value x| + |w - value y| := abs_sub _ _
      _ ≤ 2 := by linarith
  have hlarge : (2 : ℚ) ^ (53 + 1) ≤ |value y| := by
    have hless := abs_sub_abs_le_abs_sub (value x) (value y)
    rw [abs_sub_comm] at hless
    norm_num at hfar ⊢
    linarith
  have hlarge' : (2 : ℚ) ^ (53 + 1) ≤ |value x| :=
    (pow_le_pow_right₀ one_le_two (by decide)).trans hfar
  obtain ⟨n, hn⟩ := exists_multiple hx hlarge'
  obtain ⟨n', hn'⟩ := exists_multiple h.isFinite hlarge
  -- both are multiples of four
  have hsame : n' = n := by
    rw [hn, hn', ← sub_mul, abs_mul] at hdistance
    have hsmall : |((n' - n : Int) : ℚ)| < 1 := by
      push_cast
      norm_num at hdistance
      linarith
    have hzero : |n' - n| < 1 := by exact_mod_cast hsmall
    have := Int.abs_lt_one_iff.1 hzero
    omega
  refine eq_of_value h.isFinite hx (by rw [hn, hn', hsame]) ?_
  intro hzero
  rw [hzero, abs_zero] at hlarge
  norm_num at hlarge

end CurveArt.Binary64
