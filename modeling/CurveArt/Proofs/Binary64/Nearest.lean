import CurveArt.Proofs.Binary64.Values

/-!
# The double nearest to a number

Every number that is not beyond all doubles has a double nearest to it, and rounding finds one. What
is used of such a double is that it lies on the same side of every double as the number does, and how
far from the number it can be.

Main results:

* `exists_roundsTo`: the nearest double of a positive number.
* `RoundsTo.abs_sub_le`: no double is nearer.
* `rounds_roundWithAccuracy`: rounding gives a double that none is nearer than.
* `Rounds.le`, `Rounds.ge`, `Rounds.mono`, `Rounds.error_le`: what follows for its number.
-/

namespace CurveArt.Binary64

open Float.Model (Format UnpackedFloat totalExponent)
open Float.Model.UnpackedFloat

variable {v w : ℚ} {m m' : Nat} {q q' : Int} {x y : Float}

/-! ## Existence -/

/-- Half a step above the greatest double; from here on numbers are rounded to infinity. -/
def overflowBound : ℚ := 2 ^ (1024 : Int) - 2 ^ (970 : Int)

theorem overflowBound_eq : overflowBound = (2 ^ (53 : Nat) - 1 / 2) * 2 ^ (971 : Int) := by
  have htop : (2 : ℚ) ^ (1024 : Int) = 2 ^ (53 : Nat) * 2 ^ (971 : Int) := by
    rw [← zpow_natCast, ← zpow_add₀ two_ne_zero]
    rfl
  have hhalf : (2 : ℚ) ^ (970 : Int) = 2 ^ (971 : Int) / 2 := by
    rw [show (970 : Int) = 971 - 1 from rfl, zpow_sub_one₀ two_ne_zero]
    rfl
  rw [overflowBound, htop, hhalf]
  ring

theorem two_pow_lt_overflowBound : (2 : ℚ) ^ (1023 : Int) < overflowBound := by
  have htop : (2 : ℚ) ^ (1024 : Int) = 2 ^ (1023 : Int) * 2 := by
    rw [← zpow_add_one₀ two_ne_zero]
    rfl
  have hstep : (2 : ℚ) ^ (970 : Int) < 2 ^ (1023 : Int) :=
    zpow_lt_zpow_right₀ one_lt_two (by decide)
  rw [overflowBound, htop, mul_two]
  exact lt_sub_iff_add_lt.2 (add_lt_add_right hstep _)

/-- There is room for a small number between the greatest double and the bound. -/
theorem abs_value_add_one_lt (hx : x.isFinite = true) : |value x| + 1 < overflowBound := by
  have hscale : (2 : ℚ) < 2 ^ (971 : Int) := by
    have hstep : (2 : ℚ) ^ (1 : Int) < 2 ^ (971 : Int) := zpow_lt_zpow_right₀ one_lt_two (by decide)
    rwa [zpow_one] at hstep
  rw [overflowBound_eq]
  rcases cases_of_isFinite hx with ⟨s, hx⟩ | ⟨s, m, q, hm, hx, hc⟩
  · rw [value_eq hx, valueOf_zero, abs_zero]
    generalize (2 : ℚ) ^ (971 : Int) = scale at *
    norm_num
    linarith
  · have hgreatest := hc.value_le_greatest
    rw [hc.abs_value hx]
    generalize (2 : ℚ) ^ (971 : Int) = scale at *
    linarith

/-- No double is beyond all doubles. -/
theorem abs_value_lt (hx : x.isFinite = true) : |value x| < overflowBound :=
  (lt_add_one _).trans (abs_value_add_one_lt hx)

theorem value_le (hx : x.isFinite = true) : value x ≤ 2 ^ (1024 : Int) :=
  ((le_abs_self _).trans_lt (abs_value_lt hx)).le.trans (sub_le_self _ (by positivity))

theorem exists_nearest (h : 0 ≤ v) : ∃ n, Nearest v n := by
  have hlow : (⌊v⌋₊ : ℚ) ≤ v := Nat.floor_le h
  have hhigh : v < ⌊v⌋₊ + 1 := Nat.lt_floor_add_one v
  rcases lt_trichotomy v (⌊v⌋₊ + 1 / 2) with hlt | heq | hgt
  · exact ⟨⌊v⌋₊, by linarith, by linarith, fun _ => ⟨by linarith, by linarith⟩⟩
  · -- half way between two natural numbers, one of which is even
    rcases Nat.mod_two_eq_zero_or_one ⌊v⌋₊ with heven | hodd
    · exact ⟨⌊v⌋₊, by linarith, by linarith, fun hodd => absurd hodd (by omega)⟩
    · refine ⟨⌊v⌋₊ + 1, ?_, ?_, fun hodd => absurd hodd (by omega)⟩ <;> push_cast <;> linarith
  · refine ⟨⌊v⌋₊ + 1, ?_, ?_, fun _ => ⟨?_, ?_⟩⟩ <;> push_cast <;> linarith

/-- The grid on which a number has fifty-three bits, or else the finest one. -/
theorem exists_grid (hpos : 0 < v) (hhigh : v < overflowBound) :
    ∃ q : Int, -1074 ≤ q ∧ q ≤ 971 ∧ v / 2 ^ q < 2 ^ (53 : Nat) ∧
      (q ≠ -1074 → (2 : ℚ) ^ (52 : Nat) ≤ v / 2 ^ q) := by
  have hone : (1 : ℚ) < 2 := one_lt_two
  have hpower : (2 : ℚ) ^ Int.log 2 v ≤ v := by
    exact_mod_cast Int.zpow_log_le_self (b := 2) (by decide) hpos
  have hpower' : v < 2 ^ (Int.log 2 v + 1) := by
    exact_mod_cast Int.lt_zpow_succ_log_self (b := 2) (by decide) v
  have hgreatest : Int.log 2 v < 1024 := by
    refine (zpow_lt_zpow_iff_right₀ hone).1 (hpower.trans_lt (hhigh.trans ?_))
    exact sub_lt_self _ (by positivity)
  refine ⟨max (Int.log 2 v - 52) (-1074), le_max_right _ _, by omega, ?_, fun hne => ?_⟩
  · rw [div_lt_iff₀ (by positivity), ← zpow_natCast, ← zpow_add₀ two_ne_zero]
    exact hpower'.trans_le (zpow_le_zpow_right₀ hone.le (by omega))
  · rw [le_div_iff₀ (by positivity), ← zpow_natCast, ← zpow_add₀ two_ne_zero]
    exact (zpow_le_zpow_right₀ hone.le (by omega)).trans hpower

/-- A number that is rounded to the next power of two. -/
theorem roundsTo_carry (hn : Nearest (v / 2 ^ q) (2 ^ 53)) (hr : v / 2 ^ q < 2 ^ (53 : Nat))
    (hleast : -1074 ≤ q) (hgreatest : q < 971) : RoundsTo v (2 ^ 52) (q + 1) := by
  have hnext : v / 2 ^ (q + 1) = v / 2 ^ q / 2 := by
    rw [zpow_add_one₀ two_ne_zero, div_mul_eq_div_div]
  have hlower := hn.lower
  push_cast at hlower
  refine ⟨⟨by decide, by decide, by omega, by omega, .inr le_rfl⟩, ⟨?_, ?_, ?_⟩, fun _ _ => ?_⟩
  · rw [hnext]
    push_cast
    linarith
  · rw [hnext]
    push_cast
    linarith
  · intro hodd
    cases hodd
  · rw [hnext]
    push_cast
    linarith

/-- **The nearest double.** Numbers that are neither rounded to zero nor to infinity are rounded to
a double. -/
theorem exists_roundsTo (hlow : 2 ^ (-1075 : Int) < v) (hhigh : v < overflowBound) :
    ∃ m q, RoundsTo v m q := by
  have hpos : 0 < v := lt_trans (by positivity) hlow
  obtain ⟨q, hleast, hgreatest, hr, hr'⟩ := exists_grid hpos hhigh
  have hscale : (0 : ℚ) < 2 ^ q := by positivity
  obtain ⟨n, hn⟩ := exists_nearest (div_nonneg hpos.le hscale.le)
  have hlower := hn.lower
  have hupper := hn.upper
  have hfull (hne : q ≠ -1074) : 2 ^ 52 ≤ n := by
    have hr' := hr' hne
    have hlt : (2 : ℚ) ^ (52 : Nat) < n + 1 := by linarith
    have hlt : 2 ^ 52 < n + 1 := by exact_mod_cast hlt
    omega
  have hle : n ≤ 2 ^ 53 := by
    have hlt : (n : ℚ) < 2 ^ (53 : Nat) + 1 := by linarith
    have hlt : n < 2 ^ 53 + 1 := by exact_mod_cast hlt
    omega
  rcases Nat.lt_or_eq_of_le hle with hlt | rfl
  · have hnpos : 0 < n := by
      by_cases hne : q = -1074
      · have hhalf : 1 / 2 < v / 2 ^ q := by
          rw [lt_div_iff₀ hscale, hne]
          rw [show (-1075 : Int) = -1074 - 1 from rfl, zpow_sub_one₀ two_ne_zero] at hlow
          linarith
        have hn : (0 : ℚ) < n := by linarith
        exact_mod_cast hn
      · exact lt_of_lt_of_le (by decide) (hfull hne)
    refine ⟨n, q, ⟨hnpos, hlt, hleast, hgreatest, ?_⟩, hn, fun hm hne => ?_⟩
    · by_cases hne : q = -1074
      · exact .inl hne
      · exact .inr (hfull hne)
    · have := hr' (by omega)
      rw [hm]
      push_cast
      linarith
  · -- a carry, for which the greatest exponent leaves no room
    have hroom : q < 971 := by
      refine lt_of_le_of_ne hgreatest fun heq => ?_
      have htop : v / 2 ^ q < 2 ^ (53 : Nat) - 1 / 2 := by
        rw [div_lt_iff₀ hscale, heq, ← overflowBound_eq]
        exact hhigh
      push_cast at hlower
      linarith
    exact ⟨2 ^ 52, q + 1, roundsTo_carry hn hr hleast hroom⟩

/-! ## No double is nearer -/

/-- Zero is no nearer to a number than the double that it is rounded to. -/
theorem RoundsTo.abs_sub_le_self (h : RoundsTo v m q) : |v - m * 2 ^ q| ≤ v := by
  have hscale : (0 : ℚ) < 2 ^ q := by positivity
  have hm : (1 : ℚ) ≤ m := by exact_mod_cast h.canonical.pos
  have hlower := h.nearest.lower
  rw [le_div_iff₀ hscale] at hlower
  rw [abs_le]
  constructor
  · nlinarith
  · nlinarith

/-- No natural number is nearer than the nearest one. -/
theorem Nearest.abs_sub_le {r : ℚ} {n : Nat} (h : Nearest r n) (k : Nat) : |r - n| ≤ |r - k| := by
  have hlower := h.lower
  have hupper := h.upper
  have hnear : |r - n| ≤ 1 / 2 := abs_le.2 ⟨by linarith, by linarith⟩
  -- any other one is at least one away from it
  rcases lt_trichotomy k n with hlt | rfl | hgt
  · have hstep : (k : ℚ) + 1 ≤ n := by exact_mod_cast hlt
    exact hnear.trans ((by linarith : 1 / 2 ≤ r - k).trans (le_abs_self _))
  · exact le_rfl
  · have hstep : (n : ℚ) + 1 ≤ k := by exact_mod_cast hgt
    exact hnear.trans ((by linarith : 1 / 2 ≤ -(r - k)).trans (neg_le_abs _))

/-- Finer doubles end half a step below the least mantissa with a leading bit. -/
theorem Canonical.finer_le (h : Canonical m' q') (hq : q' < q) :
    (m' : ℚ) * 2 ^ (q' - q) ≤ 2 ^ (52 : Nat) - 1 / 2 := by
  have hm' : (m' : ℚ) ≤ 2 ^ (53 : Nat) - 1 := by
    have hlt : (m' : ℚ) + 1 ≤ 2 ^ (53 : Nat) := by exact_mod_cast h.lt
    linarith
  have hstep : (2 : ℚ) ^ (q' - q) ≤ 1 / 2 := by
    refine (zpow_le_zpow_right₀ one_le_two (show q' - q ≤ -1 by omega)).trans ?_
    norm_num
  calc (m' : ℚ) * 2 ^ (q' - q) ≤ (2 ^ (53 : Nat) - 1) * (1 / 2) :=
        mul_le_mul hm' hstep (by positivity) (by norm_num)
    _ = 2 ^ (52 : Nat) - 1 / 2 := by norm_num

/-- **No double is nearer** than the one that a number is rounded to. -/
theorem RoundsTo.abs_sub_le (h : RoundsTo v m q) (hc : Canonical m' q') :
    |v - m * 2 ^ q| ≤ |v - m' * 2 ^ q'| := by
  have hscale : (0 : ℚ) < 2 ^ q := by positivity
  have hnearest := h.nearest
  have hclose := h.close
  -- counted in steps of the grid
  set r := v / 2 ^ q with hr
  have hv : v = r * 2 ^ q := by rw [hr, div_mul_cancel₀ _ hscale.ne']
  have hc' : (m' : ℚ) * 2 ^ q' = m' * 2 ^ (q' - q) * 2 ^ q := by
    rw [mul_assoc, ← zpow_add₀ two_ne_zero, sub_add_cancel]
  rw [hv, hc', ← sub_mul, ← sub_mul, abs_mul, abs_mul]
  refine mul_le_mul_of_nonneg_right ?_ (abs_nonneg _)
  rcases le_or_gt q q' with hq | hq
  · -- coarser doubles are whole numbers of steps
    obtain ⟨n, hn⟩ : ∃ n : Nat, (m' : ℚ) * 2 ^ (q' - q) = n := by
      refine ⟨m' * 2 ^ (q' - q).toNat, ?_⟩
      push_cast
      rw [← zpow_natCast, Int.toNat_of_nonneg (by omega)]
    rw [hn]
    exact hnearest.abs_sub_le n
  · have hleast : -1074 < q := lt_of_le_of_lt hc.least hq
    have hfull : 2 ^ 52 ≤ m := h.canonical.full.resolve_left (by omega)
    have hfine := hc.finer_le hq
    have hlower := hnearest.lower
    have hupper := hnearest.upper
    refine le_trans ?_ (le_abs_self _)
    rw [abs_le]
    rcases Nat.eq_or_lt_of_le hfull with heq | hlt
    · have hclose := hclose heq.symm hleast
      rw [← heq] at hclose hupper ⊢
      push_cast at hclose hupper ⊢
      constructor <;> linarith
    · have hm : (2 : ℚ) ^ (52 : Nat) + 1 ≤ m := by exact_mod_cast hlt
      constructor <;> linarith

/-- The double is finite, and none is nearer to the number. -/
structure Rounds (v : ℚ) (x : Float) : Prop where
  isFinite : x.isFinite = true
  nearest : ∀ y : Float, y.isFinite = true → |v - value x| ≤ |v - value y|

theorem signed_sub (sign : UnpackedFloat.Sign) (v w : ℚ) :
    |signed sign v - signed sign w| = |v - w| := by
  cases sign with
  | positive => rfl
  | negative =>
    show |-v - -w| = |v - w|
    rw [neg_sub_neg, abs_sub_comm]

/-- The distance from a number to doubles of either sign. -/
theorem le_abs_sub_value {d : ℚ} (hzero : d ≤ v)
    (hparts : ∀ m q, Canonical m q → d ≤ |v - m * 2 ^ q|) (sign : UnpackedFloat.Sign)
    (hy : y.isFinite = true) : d ≤ |signed sign v - value y| := by
  rcases cases_of_isFinite hy with ⟨s, hy⟩ | ⟨s, m, q, hm, hy, hc⟩
  · rw [value_eq hy, valueOf_zero, sub_zero]
    refine hzero.trans ?_
    cases sign with
    | positive => exact le_abs_self v
    | negative => exact (le_abs_self v).trans_eq (abs_neg v).symm
  · rw [value_eq hy]
    have hvalue := hc.value_pos
    show d ≤ |signed sign v - signed s (m * 2 ^ q)|
    by_cases hsign : s = sign
    · subst hsign
      rw [signed_sub]
      exact hparts m q hc
    · -- a double of the other sign is further away than zero
      refine hzero.trans ?_
      cases sign with
      | positive =>
        cases s with
        | positive => exact absurd rfl hsign
        | negative =>
          show v ≤ |v - -((m : ℚ) * 2 ^ q)|
          exact le_trans (by linarith) (le_abs_self _)
      | negative =>
        cases s with
        | positive =>
          show v ≤ |-v - (m : ℚ) * 2 ^ q|
          exact le_trans (by linarith) (neg_le_abs _)
        | negative => exact absurd rfl hsign

theorem rounds_finite (h : RoundsTo v m q) (sign : UnpackedFloat.Sign) (hm : 0 < m) :
    Rounds (signed sign v) (packed (.finite sign m q hm)) := by
  have hunpacked := unpacked_packed h.canonical sign hm
  have hvalue : value (packed (.finite sign m q hm)) = signed sign (m * 2 ^ q) :=
    value_eq hunpacked
  refine ⟨?_, fun y hy => ?_⟩
  · rw [isFinite_eq, hunpacked]
    rfl
  · rw [hvalue, signed_sub]
    exact le_abs_sub_value h.abs_sub_le_self (fun m' q' hc => h.abs_sub_le hc) sign hy

theorem unpacked_packed_zero (sign : UnpackedFloat.Sign) :
    unpacked (packed (.zero sign)) = .zero sign := by
  cases sign <;> rfl

/-- At most half of the least positive double is rounded to zero. -/
theorem rounds_zero (hpos : 0 ≤ v) (hv : v ≤ 2 ^ (-1075 : Int)) (sign : UnpackedFloat.Sign) :
    Rounds (signed sign v) (packed (.zero sign)) := by
  have hvalue : value (packed (.zero sign)) = signed sign 0 := by
    rw [value_eq (unpacked_packed_zero sign)]
    cases sign with
    | positive => rfl
    | negative => exact neg_zero.symm
  refine ⟨?_, fun y hy => ?_⟩
  · rw [isFinite_eq, unpacked_packed_zero]
    rfl
  · rw [hvalue, signed_sub, sub_zero, abs_of_nonneg hpos]
    refine le_abs_sub_value le_rfl (fun m q hc => ?_) sign hy
    have hm : (1 : ℚ) ≤ m := by exact_mod_cast hc.pos
    have hleast : (2 : ℚ) ^ (-1074 : Int) ≤ 2 ^ q := zpow_le_zpow_right₀ one_le_two hc.least
    have hhalf : (2 : ℚ) ^ (-1074 : Int) = 2 * 2 ^ (-1075 : Int) := by
      rw [show (-1074 : Int) = -1075 + 1 from rfl, zpow_add_one₀ two_ne_zero, mul_comm]
    have hdouble : (2 : ℚ) ^ q ≤ m * 2 ^ q := le_mul_of_one_le_left (by positivity) hm
    exact le_trans (by linarith) (neg_le_abs _)

/-! ## Rounding -/

theorem roundWithAccuracy_zero {M : Nat} {accuracy : Accuracy} {e : Int} (h : Fine v M e accuracy)
    (hpos : 0 ≤ v) (hv : v ≤ 2 ^ (-1075 : Int)) (sign : UnpackedFloat.Sign) :
    roundWithAccuracy Format.binary64 sign M e accuracy = .zero sign := by
  obtain ⟨hx, he, hM⟩ := h
  have htarget : Format.binary64.targetExponent (totalExponent M e) = -1074 := by
    rw [targetExponent_eq]
    rcases Nat.eq_zero_or_pos M with rfl | hM'
    · rw [totalExponent, show (0 : Nat).log2 = 0 from rfl]
      omega
    · have hlow := hx.totalExponent_bounds (by rwa [mantissa_ofMantissaAndAccuracy])
      rw [mantissa_ofMantissaAndAccuracy] at hlow
      have := (zpow_le_zpow_iff_right₀ (one_lt_two (α := ℚ))).1 (hlow.1.trans hv)
      omega
  obtain ⟨em, hfirst, hem⟩ := hx.shiftToTargetExponent htarget (htarget ▸ he)
  have hsmall : Nearest (v / 2 ^ (-1074 : Int)) 0 := by
    have hscale : (0 : ℚ) < 2 ^ (-1074 : Int) := by positivity
    have hhalf : v / 2 ^ (-1074 : Int) ≤ 1 / 2 := by
      rw [div_le_iff₀ hscale]
      refine hv.trans_eq ?_
      rw [show (-1075 : Int) = -1074 - 1 from rfl, zpow_sub_one₀ two_ne_zero]
      ring
    have hlow : 0 ≤ v / 2 ^ (-1074 : Int) := div_nonneg hpos hscale.le
    generalize v / 2 ^ (-1074 : Int) = r at hhalf hlow
    refine ⟨?_, ?_, fun hodd => absurd hodd (by decide)⟩ <;> push_cast <;> linarith
  have hrounded := hem.roundedMantissa_eq hsmall
  simp only [roundWithAccuracy, hfirst, hrounded,
    shiftToTargetExponent_small (show 0 < 2 ^ 53 by decide) le_rfl]
  rfl

/-- **Rounding gives the nearest double.** -/
theorem rounds_roundWithAccuracy {M : Nat} {accuracy : Accuracy} {e : Int}
    (hfine : Fine v M e accuracy) (hpos : 0 ≤ v) (hhigh : v < overflowBound)
    (sign : UnpackedFloat.Sign) :
    Rounds (signed sign v) (packed (roundWithAccuracy Format.binary64 sign M e accuracy)) := by
  rcases le_or_gt v (2 ^ (-1075 : Int)) with hsmall | hlarge
  · rw [roundWithAccuracy_zero hfine hpos hsmall]
    exact rounds_zero hpos hsmall sign
  · obtain ⟨m, q, h⟩ := exists_roundsTo hlarge hhigh
    rw [roundWithAccuracy_eq hfine h]
    exact rounds_finite h sign _

/-! ## What follows -/

namespace Rounds

/-- A number is rounded to no more than any double above it. -/
theorem le (h : Rounds v x) (hy : y.isFinite = true) (hv : v ≤ value y) : value x ≤ value y := by
  have hnear := h.nearest y hy
  rw [abs_of_nonpos (show v - value y ≤ 0 by linarith)] at hnear
  have hself := neg_abs_le (v - value x)
  linarith

/-- A number is rounded to no less than any double below it. -/
theorem ge (h : Rounds v x) (hy : y.isFinite = true) (hv : value y ≤ v) : value y ≤ value x := by
  have hnear := h.nearest y hy
  rw [abs_of_nonneg (show 0 ≤ v - value y by linarith)] at hnear
  have hself := le_abs_self (v - value x)
  linarith

/-- The number of a double is rounded to itself. -/
theorem eq (h : Rounds (value y) x) (hy : y.isFinite = true) : value x = value y :=
  le_antisymm (h.le hy le_rfl) (h.ge hy le_rfl)

/-- Rounding keeps the order. -/
theorem mono (h : Rounds v x) (h' : Rounds w y) (hvw : v < w) : value x ≤ value y := by
  have hx := h.nearest y h'.isFinite
  have hy := h'.nearest x h.isFinite
  by_contra hlt
  rw [not_le] at hlt
  -- the middle between the two doubles would separate the numbers the other way round
  have hlow : (value x + value y) / 2 ≤ v := by
    by_contra hmiddle
    rw [not_le] at hmiddle
    have hfar : value x - v ≤ |v - value y| := (neg_sub v (value x) ▸ neg_le_abs _).trans hx
    rcases abs_cases (v - value y) with ⟨habs, -⟩ | ⟨habs, -⟩ <;> rw [habs] at hfar <;> linarith
  have hhigh : w ≤ (value x + value y) / 2 := by
    by_contra hmiddle
    rw [not_le] at hmiddle
    have hfar : w - value y ≤ |w - value x| := (le_abs_self _).trans hy
    rcases abs_cases (w - value x) with ⟨habs, -⟩ | ⟨habs, -⟩ <;> rw [habs] at hfar <;> linarith
  linarith

end Rounds

theorem value_power {hm : 0 < 2 ^ 52} (h : unpacked x = .finite .positive (2 ^ 52) q hm) :
    value x = 2 ^ (52 + q) := by
  rw [value_eq h, zpow_add₀ two_ne_zero]
  show ((2 ^ 52 : Nat) : ℚ) * 2 ^ q = 2 ^ (52 : Int) * 2 ^ q
  congr 1

/-- The powers of two are doubles. -/
theorem exists_power {k : Int} (hlow : -1022 ≤ k) (hhigh : k ≤ 1023) :
    ∃ y : Float, y.isFinite = true ∧ value y = 2 ^ k := by
  have hc : Canonical (2 ^ 52) (k - 52) :=
    ⟨by decide, by decide, by omega, by omega, .inr le_rfl⟩
  have hunpacked := unpacked_packed hc .positive hc.pos
  refine ⟨packed (.finite .positive (2 ^ 52) (k - 52) hc.pos), ?_, ?_⟩
  · rw [isFinite_eq, hunpacked]
    rfl
  · rw [value_power hunpacked]
    congr 1
    omega

theorem Rounds.le_power {k : Int} (h : Rounds v x) (hlow : -1022 ≤ k) (hhigh : k ≤ 1023)
    (hv : v ≤ 2 ^ k) : value x ≤ 2 ^ k := by
  obtain ⟨y, hy, hvalue⟩ := exists_power hlow hhigh
  rw [← hvalue] at hv ⊢
  exact h.le hy hv

theorem Rounds.power_le {k : Int} (h : Rounds v x) (hlow : -1022 ≤ k) (hhigh : k ≤ 1023)
    (hv : 2 ^ k ≤ v) : 2 ^ k ≤ value x := by
  obtain ⟨y, hy, hvalue⟩ := exists_power hlow hhigh
  rw [← hvalue] at hv ⊢
  exact h.ge hy hv

/-- Parts with a coarser step than numbers up to a power of two have are those of this power. -/
theorem RoundsTo.eq_power {k : Int} (h : RoundsTo v m q) (hk : -1021 ≤ k) (hv : v ≤ 2 ^ k)
    (hq : k - 53 < q) : m = 2 ^ 52 ∧ q = k - 52 := by
  have hscale : (0 : ℚ) < 2 ^ q := by positivity
  have hleast : -1074 < q := by omega
  have hge := h.ge hleast
  have htop : (2 : ℚ) ^ k = 2 ^ (52 : Nat) * 2 ^ (k - 52) := by
    rw [← zpow_natCast, ← zpow_add₀ two_ne_zero]
    congr 1
    push_cast
    omega
  rw [htop] at hv
  have hexponent : q = k - 52 := by
    by_contra hne
    have hstep : (2 : ℚ) ^ (k - 52 + 1) ≤ 2 ^ q := zpow_le_zpow_right₀ one_le_two (by omega)
    rw [zpow_add_one₀ two_ne_zero] at hstep
    have hpos : (0 : ℚ) < 2 ^ (k - 52) := by positivity
    norm_num at hge hv
    linarith
  refine ⟨?_, hexponent⟩
  rw [← hexponent, ← div_le_iff₀ hscale] at hv
  have hlower := h.nearest.lower
  have hfull : 2 ^ 52 ≤ m := h.canonical.full.resolve_left (by omega)
  have hlt : (m : ℚ) < 2 ^ (52 : Nat) + 1 := by linarith
  have hlt : m < 2 ^ 52 + 1 := by exact_mod_cast hlt
  omega

/-- Parts are within half a step of the number that is rounded to them, and within a quarter of one
where they are a power of two that the number does not exceed. -/
theorem RoundsTo.error_le {k : Int} (h : RoundsTo v m q) (hk : -1021 ≤ k) (hv : v ≤ 2 ^ k) :
    |v - m * 2 ^ q| ≤ 2 ^ (k - 54) := by
  have hscale : (0 : ℚ) < 2 ^ q := by positivity
  have hlower := h.nearest.lower
  have hupper := h.nearest.upper
  rw [le_div_iff₀ hscale] at hlower
  rw [div_le_iff₀ hscale] at hupper
  rcases le_or_gt q (k - 53) with hq | hq
  · have hstep : (2 : ℚ) ^ q ≤ 2 ^ (k - 53) := zpow_le_zpow_right₀ one_le_two hq
    have hnext : (2 : ℚ) ^ (k - 53) = 2 * 2 ^ (k - 54) := by
      rw [show k - 53 = k - 54 + 1 by omega, zpow_add_one₀ two_ne_zero, mul_comm]
    exact abs_le.2 ⟨by linarith, by linarith⟩
  · obtain ⟨hm, hexponent⟩ := h.eq_power hk hv hq
    have hclose := h.close hm (by omega)
    rw [le_div_iff₀ hscale] at hclose
    have htop : (m : ℚ) * 2 ^ q = 2 ^ k := by
      rw [hm, hexponent, Nat.cast_pow, Nat.cast_ofNat, ← zpow_natCast, ← zpow_add₀ two_ne_zero]
      congr 1
      push_cast
      omega
    have hquarter : (2 : ℚ) ^ q = 4 * 2 ^ (k - 54) := by
      rw [hexponent, show k - 52 = k - 54 + 2 by omega, zpow_add₀ two_ne_zero]
      norm_num
      ring
    rw [← htop] at hv
    exact abs_le.2 ⟨by linarith, by linarith⟩

theorem signed_abs (v : ℚ) : ∃ sign, v = signed sign |v| := by
  rcases le_or_gt 0 v with h | h
  · exact ⟨.positive, (abs_of_nonneg h).symm⟩
  · exact ⟨.negative, by rw [abs_of_neg h]; exact (neg_neg v).symm⟩

/-- How far from a number its nearest double can be. -/
theorem Rounds.error_le {k : Int} (h : Rounds v x) (hk : -1021 ≤ k) (hhigh : |v| < overflowBound)
    (hv : |v| ≤ 2 ^ k) : |v - value x| ≤ 2 ^ (k - 54) := by
  obtain ⟨sign, hsign⟩ := signed_abs v
  rcases le_or_gt |v| (2 ^ (-1075 : Int)) with hsmall | hlarge
  · have hzero := h.nearest _ (rounds_zero (abs_nonneg v) hsmall sign).isFinite
    rw [value_eq (unpacked_packed_zero sign), valueOf_zero, sub_zero] at hzero
    exact (hzero.trans hsmall).trans (zpow_le_zpow_right₀ one_le_two (by omega))
  · obtain ⟨m, q, hparts⟩ := exists_roundsTo hlarge hhigh
    have hpos := hparts.canonical.pos
    have hnear := h.nearest _ (rounds_finite hparts sign hpos).isFinite
    rw [value_eq (unpacked_packed hparts.canonical sign hpos)] at hnear
    have hsub : |v - signed sign (m * 2 ^ q)| = |(|v|) - m * 2 ^ q| := by
      conv_lhs => rw [hsign]
      exact signed_sub sign _ _
    exact (hnear.trans_eq hsub).trans (hparts.error_le hk hv)

/-- The error is a small part of the number, but for numbers that are very small themselves. -/
theorem Rounds.error_le_part (h : Rounds v x) (hhigh : |v| < overflowBound) :
    |v - value x| ≤ |v| / 2 ^ (53 : Nat) + 2 ^ (-1075 : Int) := by
  have hpart : (0 : ℚ) ≤ |v| / 2 ^ (53 : Nat) := div_nonneg (abs_nonneg v) (by positivity)
  rcases le_or_gt |v| (2 ^ (-1021 : Int)) with hsmall | hlarge
  · have herror : |v - value x| ≤ 2 ^ (-1075 : Int) := h.error_le le_rfl hhigh hsmall
    linarith
  · have hpos : 0 < |v| := lt_trans (by positivity) hlarge
    have hlow : (2 : ℚ) ^ Int.log 2 |v| ≤ |v| := by
      exact_mod_cast Int.zpow_log_le_self (b := 2) (by decide) hpos
    have hhigh' : |v| < 2 ^ (Int.log 2 |v| + 1) := by
      exact_mod_cast Int.lt_zpow_succ_log_self (b := 2) (by decide) |v|
    have hk : -1021 < Int.log 2 |v| + 1 :=
      (zpow_lt_zpow_iff_right₀ (one_lt_two (α := ℚ))).1 (hlarge.trans hhigh')
    have herror := h.error_le hk.le hhigh hhigh'.le
    have hstep : (2 : ℚ) ^ (Int.log 2 |v| + 1 - 54) = 2 ^ Int.log 2 |v| / 2 ^ (53 : Nat) := by
      rw [show Int.log 2 |v| + 1 - 54 = Int.log 2 |v| - 53 by omega, zpow_sub₀ two_ne_zero]
      rfl
    rw [hstep] at herror
    have hscale : (2 : ℚ) ^ Int.log 2 |v| / 2 ^ (53 : Nat) ≤ |v| / 2 ^ (53 : Nat) :=
      div_le_div_of_nonneg_right hlow (by positivity)
    have htiny : (0 : ℚ) ≤ 2 ^ (-1075 : Int) := by positivity
    linarith

/-- The error is a small part of the number, where that is not very small. -/
theorem Rounds.error_le_of_large (h : Rounds v x) (hlow : 2 ^ (-1022 : Int) ≤ v)
    (hhigh : v < overflowBound) : |v - value x| ≤ v / 2 ^ (52 : Nat) := by
  have hpos : 0 < v := lt_of_lt_of_le (by positivity) hlow
  have herror := h.error_le_part (by rwa [abs_of_pos hpos])
  rw [abs_of_pos hpos] at herror
  have htiny : (2 : ℚ) ^ (-1075 : Int) ≤ v / 2 ^ (53 : Nat) := by
    rw [le_div_iff₀ (by positivity), ← zpow_natCast, ← zpow_add₀ two_ne_zero]
    exact hlow
  have hhalves : v / 2 ^ (53 : Nat) + v / 2 ^ (53 : Nat) = v / 2 ^ (52 : Nat) := by ring
  linarith

end CurveArt.Binary64
