import CurveArt.Proofs.Binary64.Scientific

/-!
# Halves of doubles

Half of a positive double is exact unless the double has the least exponent and an odd mantissa, and
then it is rounded to an even one. Only half of the very least positive double is rounded to zero.
Around zero a half makes a range from its negative to itself, and the width of this range is finite.

Main results:

* `exists_half`, `unpacked_half`: half of a positive double.
* `neg_lt_self`, `width_isFinite`: the range around zero.
-/

namespace CurveArt.Binary64

open Float.Model (Format UnpackedFloat totalExponent)
open Float.Model.UnpackedFloat

variable {m : Nat} {q : Int}

/-! ## Comparisons -/

theorem lt_iff (x y : Float) : x < y ↔ (unpacked x).compare (unpacked y) = some .lt := by
  show decide (x.toModel < y.toModel) = true ↔ _
  rw [decide_eq_true_iff]
  show (UnpackedFloat.lt _ _) = true ↔ _
  rw [UnpackedFloat.lt, beq_iff_eq]
  rfl

theorem le_iff (x y : Float) :
    x ≤ y ↔ ((unpacked x).compare (unpacked y)).any Ordering.isLE = true := by
  show decide (x.toModel ≤ y.toModel) = true ↔ _
  rw [decide_eq_true_iff]
  rfl

theorem beq_iff (x y : Float) :
    (x == y) = true ↔ (unpacked x).compare (unpacked y) = some .eq := by
  show (UnpackedFloat.beq _ _) = true ↔ _
  rw [UnpackedFloat.beq, beq_iff_eq]
  rfl

theorem le_of_beq {x y : Float} (h : (x == y) = true) : x ≤ y := by
  rw [le_iff, (beq_iff x y).1 h]
  rfl

theorem isFinite_eq (x : Float) : x.isFinite = (unpacked x).isFinite := rfl

theorem neg_eq_packed (x : Float) : -x = packed (UnpackedFloat.neg (unpacked x)) := rfl

theorem sub_eq_packed (x y : Float) :
    x - y = packed (UnpackedFloat.sub Format.binary64 (unpacked x) (unpacked y)) :=
  rfl

/-- A change of sign changes nothing else. -/
theorem unpacked_neg (x : Float) : unpacked (-x) = UnpackedFloat.neg (unpacked x) := by
  rw [neg_eq_packed]
  cases hx : unpacked x with
  | notANumber => rfl
  | infinity sign => cases sign <;> rfl
  | zero sign => cases sign <;> rfl
  | finite sign m q h => exact unpacked_packed (canonical_of_unpacked hx) (-sign) h

theorem isFinite_neg (x : Float) : (-x).isFinite = x.isFinite := by
  rw [isFinite_eq, isFinite_eq, unpacked_neg]
  cases unpacked x <;> rfl

theorem unpacked_zero : unpacked 0.0 = .zero .positive := rfl

theorem unpacked_two : unpacked 2.0 = .finite .positive (2 ^ 52) (-51) (by decide) := rfl

/-- A finite double that is not at most zero is positive. -/
theorem unpacked_of_pos {x : Float} (hfinite : x.isFinite = true) (hpos : ¬x ≤ 0.0) :
    ∃ m q h, unpacked x = .finite .positive m q h := by
  rw [isFinite_eq] at hfinite
  rw [le_iff, unpacked_zero] at hpos
  -- every other kind of double is not finite or at most zero
  cases hx : unpacked x with
  | notANumber =>
    rw [hx] at hfinite
    cases hfinite
  | infinity sign =>
    rw [hx] at hfinite
    cases hfinite
  | zero sign =>
    rw [hx] at hpos
    exact absurd rfl hpos
  | finite sign m q h =>
    cases sign with
    | positive => exact ⟨m, q, h, rfl⟩
    | negative =>
      rw [hx] at hpos
      exact absurd rfl hpos

/-! ## Halves -/

/-- Half of a positive double rounds to a positive double, unless it is the least one. -/
theorem exists_half (hc : Canonical m q) (hne : m ≠ 1 ∨ q ≠ -1074) :
    ∃ m' q', RoundsTo ((m : ℚ) * 2 ^ (q - 1)) m' q' ∧ q' ≤ 970 := by
  have hpos := hc.pos
  have hlt := hc.lt
  -- with the least exponent the mantissa is halved, with all others the exponent is lowered
  by_cases hq : q = -1074
  · subst hq
    have hhalf : (m : ℚ) * 2 ^ (-1074 - 1 : Int) = m / 2 * 2 ^ (-1074 : Int) := by
      rw [zpow_sub_one₀ two_ne_zero]
      ring
    have hm : ((m % 2 : Nat) : ℚ) + 2 * ((m / 2 : Nat) : ℚ) = m := by
      exact_mod_cast Nat.mod_add_div m 2
    rcases Nat.mod_two_eq_zero_or_one m with heven | hodd
    · have hcanonical : Canonical (m / 2) (-1074) :=
        ⟨by omega, by omega, le_rfl, by decide, .inl rfl⟩
      rw [heven, Nat.cast_zero, zero_add] at hm
      refine ⟨m / 2, -1074, ?_, by decide⟩
      rw [hhalf, show (m : ℚ) / 2 = ((m / 2 : Nat) : ℚ) by linarith]
      exact hcanonical.roundsTo
    · -- half way between two doubles, of which the even one is taken
      rw [hodd, Nat.cast_one] at hm
      refine ⟨m / 2 + m / 2 % 2, -1074,
        ⟨⟨by omega, by omega, le_rfl, by decide, .inl rfl⟩, ?_, fun _ h => absurd h (by decide)⟩,
        by decide⟩
      rw [hhalf, mul_div_cancel_right₀ _ (by positivity)]
      rcases Nat.mod_two_eq_zero_or_one (m / 2) with hbit | hbit <;> rw [hbit] <;>
        refine ⟨?_, ?_, fun h => absurd h (by omega)⟩ <;> push_cast <;> linarith
  · have hleast := hc.least
    have hgreatest := hc.greatest
    have hfull : 2 ^ 52 ≤ m := hc.full.resolve_left hq
    exact ⟨m, q - 1, Canonical.roundsTo ⟨hpos, hlt, by omega, by omega, .inr hfull⟩, by omega⟩

/-- Half of a positive double other than the least is a positive double, and not one of the
greatest. -/
theorem unpacked_half {x : Float} {h : 0 < m} (hx : unpacked x = .finite .positive m q h)
    (hne : m ≠ 1 ∨ q ≠ -1074) :
    ∃ m' q' h', unpacked (x / 2.0) = .finite .positive m' q' h' ∧ Canonical m' q' ∧ q' ≤ 970 := by
  obtain ⟨m', q', hrounds, hle⟩ := exists_half (canonical_of_unpacked hx) hne
  have hvalue : (m : ℚ) * 2 ^ (q - 1) = (m : ℚ) * 2 ^ q / ((2 ^ 52 : Nat) * 2 ^ (-51 : Int)) := by
    rw [zpow_sub_one₀ two_ne_zero]
    norm_num
    ring
  rw [hvalue] at hrounds
  refine ⟨m', q', hrounds.canonical.pos, ?_, hrounds.canonical, hle⟩
  rw [div_eq_packed, hx, unpacked_two, div_eq h (by decide) hrounds]
  exact unpacked_packed hrounds.canonical .positive hrounds.canonical.pos

/-! ## The range around zero -/

/-- A positive double lies above its negative. -/
theorem neg_lt_self {x : Float} {h : 0 < m} (hx : unpacked x = .finite .positive m q h) :
    -x < x := by
  have hneg : unpacked (-x) = .finite .negative m q h := by
    rw [unpacked_neg, hx]
    rfl
  rw [lt_iff, hneg, hx]
  rfl

/-- Twice a double that is not one of the greatest is a double. -/
theorem exists_canonical_double (hc : Canonical m q) (hq : q ≤ 970) :
    ∃ m' q', Canonical m' q' ∧ ((2 * m : Nat) : ℚ) * 2 ^ q = (m' : ℚ) * 2 ^ q' := by
  have hpos := hc.pos
  have hleast := hc.least
  -- a full mantissa keeps its bits and raises the exponent, any other has room for twice as much
  by_cases hfull : 2 ^ 52 ≤ m
  · refine ⟨m, q + 1, ⟨hpos, hc.lt, by omega, by omega, .inr hfull⟩, ?_⟩
    rw [zpow_add_one₀ two_ne_zero]
    push_cast
    ring
  · have hleast' : q = -1074 := hc.full.resolve_right hfull
    exact ⟨2 * m, q, ⟨by omega, by omega, by omega, by omega, .inl hleast'⟩, rfl⟩

theorem exists_double (hc : Canonical m q) (hq : q ≤ 970) :
    ∃ m' q', RoundsTo (((2 * m : Nat) : ℚ) * 2 ^ q) m' q' := by
  obtain ⟨m', q', hc', hvalue⟩ := exists_canonical_double hc hq
  exact ⟨m', q', hvalue ▸ hc'.roundsTo⟩

/-- The range from the negative of a double to itself has a finite width, unless the double is one
of the greatest. -/
theorem width_isFinite {x : Float} {h : 0 < m} (hx : unpacked x = .finite .positive m q h)
    (hq : q ≤ 970) : (x - -x).isFinite = true := by
  have hc := canonical_of_unpacked hx
  have hneg : unpacked (-x) = .finite .negative m q h := by
    rw [unpacked_neg, hx]
    rfl
  obtain ⟨m', q', hrounds⟩ := exists_double hc hq
  have hsub :
      UnpackedFloat.sub Format.binary64 (.finite .positive m q h) (.finite .negative m q h) =
        .finite .positive m' q' hrounds.canonical.pos := by
    have hsum : compare ((m : Int) + m) 0 = .gt := Int.compare_eq_gt.2 (by omega)
    have htwice : ((m : Int) + m).toNat = 2 * m := by omega
    rw [← round_eq (by omega) q hrounds .positive]
    simp only [UnpackedFloat.sub, decreaseExponent, min_self, sub_self, Int.toNat_zero,
      Nat.shiftLeft_zero, UnpackedFloat.Sign.apply, sub_neg_eq_add, UnpackedFloat.normalize, hsum,
      htwice]
  rw [isFinite_eq, sub_eq_packed, hx, hneg, hsub,
    unpacked_packed hrounds.canonical .positive hrounds.canonical.pos]
  rfl

end CurveArt.Binary64
