import CurveArt.Proofs.Binary64.Operations

/-!
# Results beyond all doubles

From half a step above the greatest double on, a number is rounded to infinity. So every number is
rounded to something that has its place in the order of doubles, and this place does not go down
where the number goes up. A sum with a fixed term does not go down either.

Main results:

* `unpacked_round_of_overflow`: numbers beyond the bound.
* `Lands.mono`: rounding keeps the order, the infinities included.
* `lands_add`, `lands_sub`: every sum and difference of finite doubles lands at its place.
* `add_mono`: sums in one of their terms.
-/

namespace CurveArt.Binary64

open Float.Model (Format UnpackedFloat totalExponent)
open Float.Model.UnpackedFloat

variable {v w : ℚ} {x y z : Float}

/-! ## Rounding to infinity -/

/-- Parts with too great an exponent are packed as an infinity. -/
theorem unpacked_packed_of_large {m : Nat} {q : Int} (hq : 972 ≤ q) (sign : UnpackedFloat.Sign)
    (hm : 0 < m) : unpacked (packed (.finite sign m q hm)) = .infinity sign := by
  have hpack : UnpackedFloat.pack Format.binary64 (.finite sign m q hm) =
      UnpackedFloat.pack Format.binary64 (.infinity sign) := by
    have hfield : (q + Format.binary64.exponentBias +
        Format.binary64.mantissaBitsWithoutImplicit).toNat = (q + 1075).toNat := by
      simp only [Format.exponentBias]
      omega
    have hbits : 2 ^ Format.binary64.exponentBits = 2048 := rfl
    simp only [UnpackedFloat.pack]
    rw [hfield, hbits, if_pos (by omega)]
  show UnpackedFloat.unpack Format.binary64 (UnpackedFloat.pack Format.binary64 _) = _
  rw [hpack]
  cases sign <;> rfl

/-- The mantissa of a number on the grid that it is rounded on has fifty-three bits, or is the power
of two that comes next. -/
theorem Nearest.mantissa_bounds {r : ℚ} {n : Nat} (h : Nearest r n) (hlow : 2 ^ (52 : Nat) ≤ r)
    (hhigh : r < 2 ^ (53 : Nat)) : 2 ^ 52 ≤ n ∧ n ≤ 2 ^ 53 := by
  have hlower := h.lower
  have hupper := h.upper
  constructor
  · have hlt : (2 : ℚ) ^ (52 : Nat) < n + 1 := by linarith
    have hlt : 2 ^ 52 < n + 1 := by exact_mod_cast hlt
    omega
  · have hlt : (n : ℚ) < 2 ^ (53 : Nat) + 1 := by linarith
    have hlt : n < 2 ^ 53 + 1 := by exact_mod_cast hlt
    omega

/-- Half a step above the greatest double a number is rounded up. -/
theorem Nearest.eq_of_overflow {r : ℚ} {n : Nat} (h : Nearest r n) (hn : n ≤ 2 ^ 53)
    (hr : (2 : ℚ) ^ (53 : Nat) - 1 / 2 ≤ r) : n = 2 ^ 53 := by
  have hupper := h.upper
  have hlt : (2 : ℚ) ^ (53 : Nat) < n + 2 := by linarith
  have hlt : 2 ^ 53 < n + 2 := by exact_mod_cast hlt
  rcases Nat.lt_or_eq_of_le hn with hless | heq
  · -- the greatest mantissa is odd, so it would have to be nearer than half a step
    obtain rfl : n = 2 ^ 53 - 1 := by omega
    have htie := (h.tie (by decide)).2
    push_cast at htie
    norm_num at htie hr
    linarith
  · exact heq

section Large

variable {M : Nat} {accuracy : Accuracy} {e : Int} (h : Fine v M e accuracy)
  (hv : (2 : ℚ) ^ (1023 : Int) < v)
include h hv

/-- A great number does not do without a mantissa. -/
theorem Fine.pos_of_large : 0 < M := by
  refine Nat.pos_of_ne_zero ?_
  rintro rfl
  have he := h.pos_or_least.resolve_left (lt_irrefl 0)
  have hsmall := h.represents.bounds.2
  rw [mantissa_ofMantissaAndAccuracy, Nat.cast_zero, zero_add,
    div_lt_one (by positivity)] at hsmall
  have := (zpow_lt_zpow_iff_right₀ (one_lt_two (α := ℚ))).1 (hv.trans hsmall)
  omega

/-- The grid that a great number is rounded on, and the mantissa that it gets there. -/
theorem Fine.exists_mantissa : ∃ t em n, 971 ≤ t ∧
    shiftToTargetExponent Format.binary64 M e accuracy = (em, t) ∧ em.roundedMantissa = n ∧
    Nearest (v / 2 ^ t) n ∧ 2 ^ 52 ≤ n ∧ n ≤ 2 ^ 53 := by
  have hone : (1 : ℚ) < 2 := one_lt_two
  have hpos := h.pos_of_large hv
  obtain ⟨hlow, hhigh⟩ :=
    h.represents.totalExponent_bounds (by rwa [mantissa_ofMantissaAndAccuracy])
  rw [mantissa_ofMantissaAndAccuracy] at hlow hhigh
  have htotal : 1023 < totalExponent M e := (zpow_lt_zpow_iff_right₀ hone).1 (hv.trans hhigh)
  obtain ⟨t, ht⟩ : ∃ t, totalExponent M e = t + 53 := ⟨totalExponent M e - 53, by omega⟩
  have htarget : Format.binary64.targetExponent (totalExponent M e) = t := by
    rw [targetExponent_eq]
    omega
  have hscale : (0 : ℚ) < 2 ^ t := by positivity
  obtain ⟨em, hfirst, hem⟩ :=
    h.represents.shiftToTargetExponent htarget (htarget ▸ h.exponent_le)
  obtain ⟨n, hn⟩ := exists_nearest (v := v / 2 ^ t)
    (div_nonneg ((zpow_pos two_pos _).trans hv).le hscale.le)
  refine ⟨t, em, n, by omega, hfirst, hem.roundedMantissa_eq hn, hn, ?_⟩
  rw [ht] at hlow hhigh
  refine hn.mantissa_bounds ?_ ?_
  · rw [le_div_iff₀ hscale, ← zpow_natCast, ← zpow_add₀ two_ne_zero]
    exact (zpow_le_zpow_right₀ hone.le (by push_cast; omega)).trans hlow
  · rw [div_lt_iff₀ hscale, ← zpow_natCast, ← zpow_add₀ two_ne_zero]
    exact hhigh.trans_le (zpow_le_zpow_right₀ hone.le (by push_cast; omega))

end Large

/-- **Rounding to infinity.** -/
theorem unpacked_round_of_overflow {M : Nat} {accuracy : Accuracy} {e : Int}
    (h : Fine v M e accuracy) (hv : overflowBound ≤ v) (sign : UnpackedFloat.Sign) :
    unpacked (packed (roundWithAccuracy Format.binary64 sign M e accuracy)) = .infinity sign := by
  obtain ⟨t, em, n, ht, hfirst, hrounded, hn, hfull, hle⟩ :=
    h.exists_mantissa (two_pow_lt_overflowBound.trans_le hv)
  rcases Nat.lt_or_eq_of_le hle with hlt | rfl
  · -- without a carry the exponent must be too great already
    have hlarge : 972 ≤ t := by
      by_contra hsmall
      obtain rfl : t = 971 := by omega
      refine absurd (hn.eq_of_overflow hle ?_) hlt.ne
      rw [le_div_iff₀ (by positivity), ← overflowBound_eq]
      exact hv
    simp only [roundWithAccuracy, hfirst, hrounded,
      shiftToTargetExponent_small hlt (show -1074 ≤ t by omega)]
    rw [dif_neg (by omega)]
    exact unpacked_packed_of_large hlarge sign _
  · simp only [roundWithAccuracy, hfirst, hrounded,
      shiftToTargetExponent_carry (show -1074 ≤ t by omega)]
    exact unpacked_packed_of_large (show 972 ≤ t + 1 by omega) sign (by decide)

/-! ## The place of a number -/

/-- The double that a number is rounded to: none is nearer, or it is the infinity on its side for a
number beyond all doubles. -/
structure Lands (v : ℚ) (x : Float) : Prop where
  rounds : |v| < overflowBound → Rounds v x
  above : overflowBound ≤ v → unpacked x = .infinity .positive
  below : v ≤ -overflowBound → unpacked x = .infinity .negative

theorem overflowBound_pos : 0 < overflowBound :=
  lt_trans (by positivity) two_pow_lt_overflowBound

/-- Where numbers lie next to the bound. -/
theorem overflow_cases (v : ℚ) :
    |v| < overflowBound ∨ overflowBound ≤ v ∨ v ≤ -overflowBound := by
  rcases lt_or_ge |v| overflowBound with h | h
  · exact .inl h
  · exact .inr ((le_abs.1 h).imp_right fun h => by linarith)

theorem Rounds.lands (h : Rounds v x) (hv : |v| < overflowBound) : Lands v x := by
  obtain ⟨hlow, hhigh⟩ := abs_lt.1 hv
  exact ⟨fun _ => h, fun habove => absurd hhigh habove.not_gt,
    fun hbelow => absurd hlow hbelow.not_gt⟩

theorem isNaN_of_infinity {sign : UnpackedFloat.Sign} (h : unpacked x = .infinity sign) :
    x.isNaN = false := by
  rw [isNaN_eq, h]
  rfl

theorem Lands.isNaN_eq_false (h : Lands v x) : x.isNaN = false := by
  rcases overflow_cases v with hv | hv | hv
  · exact isNaN_of_isFinite (h.rounds hv).isFinite
  · exact isNaN_of_infinity (h.above hv)
  · exact isNaN_of_infinity (h.below hv)

/-- A number lands no further up than any double above it. -/
theorem Lands.le (h : Lands v x) (hy : y.isFinite = true) (hv : v ≤ value y) :
    extended x ≤ extended y := by
  have hbound := (le_abs_self _).trans_lt (abs_value_lt hy)
  rcases overflow_cases v with hv' | hv' | hv'
  · have hx := h.rounds hv'
    rw [extended_of_isFinite hx.isFinite, extended_of_isFinite hy]
    exact_mod_cast hx.le hy hv
  · linarith
  · rw [extended_of_minus (h.below hv')]
    exact bot_le

/-- A number lands no further down than any double below it. -/
theorem Lands.ge (h : Lands v x) (hy : y.isFinite = true) (hv : value y ≤ v) :
    extended y ≤ extended x := by
  rcases overflow_cases v with hv' | hv' | hv'
  · have hx := h.rounds hv'
    rw [extended_of_isFinite hx.isFinite, extended_of_isFinite hy]
    exact_mod_cast hx.ge hy hv
  · rw [extended_of_infinity (h.above hv')]
    exact le_top
  · have hstrict := neg_lt_of_abs_lt (abs_value_lt hy)
    linarith

/-- **Rounding keeps the order** of numbers, whether they are beyond all doubles or not. -/
theorem Lands.mono (h : Lands v x) (h' : Lands w y) (hvw : v < w) : extended x ≤ extended y := by
  rcases overflow_cases v with hv | hv | hv
  · rcases overflow_cases w with hw | hw | hw
    · rw [extended_of_isFinite (h.rounds hv).isFinite, extended_of_isFinite (h'.rounds hw).isFinite]
      exact_mod_cast (h.rounds hv).mono (h'.rounds hw) hvw
    · rw [extended_of_infinity (h'.above hw)]
      exact le_top
    · have hlow := neg_lt_of_abs_lt hv
      linarith
  · rw [extended_of_infinity (h'.above (hv.trans hvw.le))]
    exact le_top
  · rw [extended_of_minus (h.below hv)]
    exact bot_le

/-! ## Sums and differences -/

theorem lands_normalize (n e : Int) (zeroSign : UnpackedFloat.Sign) :
    Lands ((n : ℚ) * 2 ^ e) (packed (UnpackedFloat.normalize Format.binary64 n e zeroSign)) := by
  have hscale : (0 : ℚ) < 2 ^ e := by positivity
  have hbound := overflowBound_pos
  refine ⟨fun h => rounds_normalize n e h zeroSign, fun h => ?_, fun h => ?_⟩
  · have hpos : 0 < n := by
      have hn : (0 : ℚ) < n := (mul_pos_iff_of_pos_right hscale).1 (hbound.trans_le h)
      exact_mod_cast hn
    have hcast : (n.toNat : ℚ) = n := by
      exact_mod_cast congrArg (Int.cast (R := ℚ)) (Int.toNat_of_nonneg hpos.le)
    rw [← hcast] at h
    rw [UnpackedFloat.normalize, compare_gt_iff_gt.2 hpos]
    exact unpacked_round_of_overflow (fine_shifted (show 0 < n.toNat by omega) e) h .positive
  · have hneg : n < 0 := by
      have hn : (n : ℚ) < 0 := by
        by_contra hn
        have := mul_nonneg (not_lt.1 hn) hscale.le
        linarith
      exact_mod_cast hn
    have hcast : ((-n).toNat : ℚ) = -n := by
      exact_mod_cast congrArg (Int.cast (R := ℚ)) (Int.toNat_of_nonneg (show 0 ≤ -n by omega))
    have habs : overflowBound ≤ ((-n).toNat : ℚ) * 2 ^ e := by
      rw [hcast, neg_mul]
      linarith
    rw [UnpackedFloat.normalize, compare_lt_iff_lt.2 hneg]
    exact unpacked_round_of_overflow (fine_shifted (show 0 < (-n).toNat by omega) e) habs .negative

/-- **Sums** land at their place, however great they are. -/
theorem lands_add (hx : x.isFinite = true) (hy : y.isFinite = true) :
    Lands (value x + value y) (x + y) := by
  -- with a zero the sum is a double, which is not beyond all doubles
  rcases cases_of_isFinite hx with ⟨s, hx'⟩ | ⟨s, m, q, hm, hx', -⟩
  · have hbound : |value x + value y| < overflowBound := by
      rw [value_eq hx', valueOf_zero, zero_add]
      exact abs_value_lt hy
    exact (rounds_add hx hy hbound).lands hbound
  · rcases cases_of_isFinite hy with ⟨s', hy'⟩ | ⟨s', m', q', hm', hy', -⟩
    · have hbound : |value x + value y| < overflowBound := by
        rw [value_eq hy', valueOf_zero, add_zero]
        exact abs_value_lt hx
      exact (rounds_add hx hy hbound).lands hbound
    · obtain ⟨n, e, hvalue, hsum⟩ := add_parts hx' hy'
      rw [hvalue, hsum]
      exact lands_normalize n e .positive

/-- **Differences** land at their place. -/
theorem lands_sub (hx : x.isFinite = true) (hy : y.isFinite = true) :
    Lands (value x - value y) (x - y) := by
  rw [sub_eq_add_neg, show value x - value y = value x + value (-y) by rw [value_neg]; ring]
  exact lands_add hx ((isFinite_neg y).trans hy)

/-- A difference that is not negative is a double or beyond all doubles. -/
theorem sub_cases (hx : x.isFinite = true) (hy : y.isFinite = true) (hle : value y ≤ value x) :
    ((x - y).isFinite = true ∧ 0 ≤ value (x - y)) ∨ unpacked (x - y) = .infinity .positive := by
  have hlands := lands_sub hx hy
  rcases overflow_cases (value x - value y) with hv | hv | hv
  · have hrounds := hlands.rounds hv
    exact .inl ⟨hrounds.isFinite, hrounds.nonneg (by linarith)⟩
  · exact .inr (hlands.above hv)
  · have hbound := overflowBound_pos
    linarith

/-! ## Order -/

theorem le_iff_extended (hx : x.isNaN = false) (hy : y.isNaN = false) :
    x ≤ y ↔ extended x ≤ extended y := by
  rw [le_iff, compare_eq_extended hx hy]
  show (compare (extended x) (extended y)).isLE = true ↔ _
  rcases lt_trichotomy (extended x) (extended y) with h | h | h
  · rw [compare_lt_iff_lt.2 h]
    exact iff_of_true rfl h.le
  · rw [compare_eq_iff_eq.2 h]
    exact iff_of_true rfl h.le
  · rw [compare_gt_iff_gt.2 h]
    exact iff_of_false Bool.false_ne_true (not_le.2 h)

theorem beq_iff_extended (hx : x.isNaN = false) (hy : y.isNaN = false) :
    (x == y) = true ↔ extended x = extended y := by
  rw [beq_iff, compare_eq_extended hx hy, Option.some_inj, compare_eq_iff_eq]

theorem isFinite_of_extended (hx : x.isNaN = false) (hy : y.isFinite = true)
    (h : extended x = extended y) : x.isFinite = true := by
  rcases cases_of_isNaN hx with hx | hx | hx
  · rw [extended_of_infinity hx] at h
    exact absurd h (extended_lt_top hy).ne'
  · rw [extended_of_minus hx] at h
    exact absurd h (bot_lt_extended hy).ne
  · exact hx

theorem beq_iff_value (hx : x.isFinite = true) (hy : y.isFinite = true) :
    (x == y) = true ↔ value x = value y := by
  rw [beq_iff, compare_eq_value hx hy, Option.some_inj, compare_eq_iff_eq]

/-- Doubles with one number are the same double, or are both zero. -/
theorem eq_or_value_eq_zero (hx : x.isFinite = true) (hy : y.isFinite = true)
    (h : value x = value y) : x = y ∨ value x = 0 :=
  (em (value x = 0)).symm.imp_left fun hne => eq_of_value hx hy h hne

/-- Equal numbers land at one place as well, where they are the number of a double. -/
theorem Lands.mono_of_le (h : Lands v x) (h' : Lands w y) (hvw : v ≤ w)
    (heq : v = w → x = y ∨ ∃ z : Float, z.isFinite = true ∧ v = value z) :
    extended x ≤ extended y := by
  rcases hvw.lt_or_eq with hlt | rfl
  · exact h.mono h' hlt
  · rcases heq rfl with rfl | ⟨z, hz, hv⟩
    · exact le_rfl
    · exact (h.le hz hv.le).trans (h'.ge hz hv.ge)

/-- A sum goes up with its second term. -/
theorem add_mono (hx : x.isFinite = true) (hy : y.isFinite = true) (hz : z.isFinite = true)
    (hyz : value y ≤ value z) : extended (x + y) ≤ extended (x + z) := by
  refine (lands_add hx hy).mono_of_le (lands_add hx hz) (by linarith) fun heq => ?_
  rcases eq_or_value_eq_zero hy hz (by linarith) with rfl | hzero
  · exact .inl rfl
  · exact .inr ⟨x, hx, by rw [hzero, add_zero]⟩

/-! ## Infinite operands -/

theorem add_infinity (hx : x.isFinite = true) (hy : unpacked y = .infinity .positive) :
    unpacked (x + y) = .infinity .positive := by
  have hadd : UnpackedFloat.add Format.binary64 (unpacked x) (.infinity .positive) =
      .infinity .positive := by
    rcases cases_of_isFinite hx with ⟨s, hx⟩ | ⟨s, m, q, hm, hx, -⟩ <;> rw [hx] <;> rfl
  rw [add_eq_packed, hy, hadd]
  rfl

theorem sub_infinity (hx : x.isFinite = true) (hy : unpacked y = .infinity .positive) :
    unpacked (x - y) = .infinity .negative := by
  have hsub : UnpackedFloat.sub Format.binary64 (unpacked x) (.infinity .positive) =
      .infinity .negative := by
    rcases cases_of_isFinite hx with ⟨s, hx⟩ | ⟨s, m, q, hm, hx, -⟩ <;> rw [hx] <;> rfl
  rw [sub_eq_packed, hy, hsub]
  rfl

/-- Nothing is no part of infinity. -/
theorem infinity_mul_zero (hx : unpacked x = .infinity .positive) (hy : y.isFinite = true)
    (hzero : value y = 0) : (x * y).isNaN = true := by
  rw [mul_eq_packed, hx]
  rcases cases_of_isFinite hy with ⟨s, hy⟩ | ⟨s, m, q, hm, hy, hc⟩
  · rw [hy]
    exact isNaN_packed rfl
  · have habs := hc.abs_value hy
    rw [hzero, abs_zero] at habs
    exact absurd habs hc.value_pos.ne

/-- Every other part of infinity is infinite. -/
theorem infinity_mul_pos (hx : unpacked x = .infinity .positive) (hy : y.isFinite = true)
    (hpos : 0 < value y) : unpacked (x * y) = .infinity .positive := by
  obtain ⟨m, q, hm, hunpacked, -, -⟩ := unpacked_of_value_pos hy hpos
  have hmul : UnpackedFloat.mul Format.binary64 (.infinity .positive) (.finite .positive m q hm) =
      .infinity .positive := rfl
  rw [mul_eq_packed, hx, hunpacked, hmul]
  rfl

end CurveArt.Binary64
