import CurveArt.Proofs.Binary64.Parts

/-!
# Rounding to the nearest double

Arithmetic on doubles computes a mantissa, an exponent and how the exact result lies between that
mantissa and the next one; rounding then takes bits away from the mantissa until fifty-three are
left. What these bits say of the exact result is kept by every step, so the double in the end is the
one that the result is nearest to, and the even one of two that are equally near.

Below a power of two the doubles lie twice as close. There the result may be rounded up on the finer
grid first, to a mantissa of fifty-four bits, and the carry makes it the power of two.

Main results:

* `Represents.roundedMantissa_eq`: the bits decide the nearest natural number.
* `roundWithAccuracy_eq`: rounding a result that lies nearest to `m · 2^q` gives this double.
* `mul_eq`, `div_eq`, `round_eq`: the operations that end with rounding.
-/

namespace CurveArt.Binary64

open Float.Model (Format UnpackedFloat totalExponent)
open Float.Model.UnpackedFloat

/-! ## Nearest natural numbers -/

/-- No natural number is nearer to `x` than `n`, and where another one is as near, `n` is even. -/
structure Nearest (x : ℚ) (n : Nat) : Prop where
  lower : (n : ℚ) - 1 / 2 ≤ x
  upper : x ≤ (n : ℚ) + 1 / 2
  tie : n % 2 = 1 → (n : ℚ) - 1 / 2 < x ∧ x < (n : ℚ) + 1 / 2

theorem nearest_natCast (n : Nat) : Nearest n n where
  lower := by linarith
  upper := by linarith
  tie := fun _ => ⟨by linarith, by linarith⟩

/-- What a mantissa, its round bit and its sticky bit say of a number: its whole part, and how the
rest of it compares with one half. -/
def Represents (em : ExtendedMantissa) (x : ℚ) : Prop :=
  match em with
  | ⟨m, false, false⟩ => x = m
  | ⟨m, false, true⟩ => (m : ℚ) < x ∧ x < m + 1 / 2
  | ⟨m, true, false⟩ => x = m + 1 / 2
  | ⟨m, true, true⟩ => (m : ℚ) + 1 / 2 < x ∧ x < m + 1

theorem represents_exact (m : Nat) :
    Represents (ExtendedMantissa.ofMantissaAndAccuracy m .exact) m :=
  rfl

/-- The whole part. -/
theorem Represents.bounds {em : ExtendedMantissa} {x : ℚ} (h : Represents em x) :
    (em.mantissa : ℚ) ≤ x ∧ x < em.mantissa + 1 := by
  rcases em with ⟨m, _ | _, _ | _⟩
  · have hx : x = m := h
    constructor <;> linarith
  · obtain ⟨hlow, hhigh⟩ := h
    constructor <;> linarith
  · have hx : x = m + 1 / 2 := h
    constructor <;> linarith
  · obtain ⟨hlow, hhigh⟩ := h
    constructor <;> linarith

/-- The bits decide which natural number is the nearest. -/
theorem Represents.roundedMantissa_eq {em : ExtendedMantissa} {x : ℚ} {n : Nat}
    (h : Represents em x) (hn : Nearest x n) : em.roundedMantissa = n := by
  obtain ⟨hlower, hupper, htie⟩ := hn
  rcases em with ⟨m, _ | _, _ | _⟩
  · obtain rfl : x = m := h
    have hlt : (n : ℚ) < m + 1 := by linarith
    have hgt : (m : ℚ) < n + 1 := by linarith
    norm_cast at hlt hgt
    show m = n
    omega
  · obtain ⟨hlow, hhigh⟩ := h
    have hlt : (n : ℚ) < m + 1 := by linarith
    have hgt : (m : ℚ) < n + 1 := by linarith
    norm_cast at hlt hgt
    show m = n
    omega
  · -- half way between `m` and `m + 1`, so only the even one of them can be meant
    have hx : x = m + 1 / 2 := h
    have hlt : (n : ℚ) ≤ m + 1 := by linarith
    have hgt : (m : ℚ) ≤ n := by linarith
    norm_cast at hlt hgt
    show m + m % 2 = n
    rcases Nat.mod_two_eq_zero_or_one n with heven | hodd
    · omega
    · obtain ⟨hlow, hhigh⟩ := htie hodd
      have hlt' : (n : ℚ) < m + 1 := by linarith
      have hgt' : (m : ℚ) < n := by linarith
      norm_cast at hlt' hgt'
      omega
  · obtain ⟨hlow, hhigh⟩ := h
    have hlt : (n : ℚ) < m + 2 := by linarith
    have hgt : (m : ℚ) < n := by linarith
    norm_cast at hlt hgt
    show m + 1 = n
    omega

/-- Taking the last bit away halves the number. -/
theorem Represents.shiftRightOne {em : ExtendedMantissa} {x : ℚ} (h : Represents em x) :
    Represents em.shiftRightOne (x / 2) := by
  rcases em with ⟨m, round, sticky⟩
  have hm : ((m % 2 : Nat) : ℚ) + 2 * ((m / 2 : Nat) : ℚ) = m := by
    exact_mod_cast Nat.mod_add_div m 2
  show Represents ⟨m / 2, m % 2 != 0, round || sticky⟩ (x / 2)
  rcases Nat.mod_two_eq_zero_or_one m with hmod | hmod
  · -- the bit that goes is zero, so the rest stays below one half
    rw [hmod] at hm ⊢
    push_cast at hm
    rcases round with _ | _ <;> rcases sticky with _ | _
    · have hx : x = m := h
      show x / 2 = ((m / 2 : Nat) : ℚ)
      linarith
    · obtain ⟨hlow, hhigh⟩ := h
      constructor <;> linarith
    · have hx : x = m + 1 / 2 := h
      constructor <;> linarith
    · obtain ⟨hlow, hhigh⟩ := h
      constructor <;> linarith
  · -- the bit that goes is one, so the rest is at least one half
    rw [hmod] at hm ⊢
    push_cast at hm
    rcases round with _ | _ <;> rcases sticky with _ | _
    · have hx : x = m := h
      show x / 2 = ((m / 2 : Nat) : ℚ) + 1 / 2
      linarith
    · obtain ⟨hlow, hhigh⟩ := h
      constructor <;> linarith
    · have hx : x = m + 1 / 2 := h
      constructor <;> linarith
    · obtain ⟨hlow, hhigh⟩ := h
      constructor <;> linarith

theorem Represents.shiftRight {em : ExtendedMantissa} {x : ℚ} (h : Represents em x) (n : Nat) :
    Represents (em >>> n) (x / 2 ^ n) := by
  show Represents (Nat.repeat ExtendedMantissa.shiftRightOne n em) _
  induction n with
  | zero => simpa [Nat.repeat] using h
  | succ n ih =>
    rw [Nat.repeat, pow_succ, ← div_div]
    exact ih.shiftRightOne

/-! ## The exponent of the result -/

theorem targetExponent_eq (t : Int) : Format.binary64.targetExponent t = max (t - 53) (-1074) := rfl

/-- A mantissa that fits is not shifted any more. -/
theorem shiftToTargetExponent_small {m : Nat} {q : Int} (hm : m < 2 ^ 53) (hq : -1074 ≤ q) :
    shiftToTargetExponent Format.binary64 m q .exact = (⟨m, false, false⟩, q) := by
  have hlog : m.log2 ≤ 52 := by
    by_cases h0 : m = 0
    · rw [h0]
      decide
    · have := (Nat.log2_lt h0).2 hm
      omega
  have hshift : (Format.binary64.targetExponent (totalExponent m q) - q).toNat = 0 := by
    rw [targetExponent_eq, totalExponent]
    omega
  simp only [shiftToTargetExponent, shiftToExponent, hshift]
  rw [Nat.cast_zero, add_zero]
  rfl

/-- A carry into the fifty-fourth bit moves the exponent. -/
theorem shiftToTargetExponent_carry {q : Int} (hq : -1074 ≤ q) :
    shiftToTargetExponent Format.binary64 (2 ^ 53) q .exact = (⟨2 ^ 52, false, false⟩, q + 1) := by
  have hshift : (Format.binary64.targetExponent (totalExponent (2 ^ 53) q) - q).toNat = 1 := by
    rw [targetExponent_eq, totalExponent, Nat.log2_two_pow]
    omega
  simp only [shiftToTargetExponent, shiftToExponent, hshift]
  rfl

/-- The number `v` rounds to the double `m · 2^q`. Below a power of two the next double is only half
a step away, so there a quarter of a step is the most that `v` may be less. -/
structure RoundsTo (v : ℚ) (m : Nat) (q : Int) : Prop where
  canonical : Canonical m q
  nearest : Nearest (v / 2 ^ q) m
  close : m = 2 ^ 52 → -1074 < q → (m : ℚ) - 1 / 4 ≤ v / 2 ^ q

/-- A double rounds to itself. -/
theorem Canonical.roundsTo {m : Nat} {q : Int} (h : Canonical m q) :
    RoundsTo ((m : ℚ) * 2 ^ q) m q := by
  have hscale : (m : ℚ) * 2 ^ q / 2 ^ q = m := mul_div_cancel_right₀ _ (by positivity)
  refine ⟨h, ?_, fun _ _ => ?_⟩
  · rw [hscale]
    exact nearest_natCast m
  · rw [hscale]
    linarith

variable {v : ℚ} {m : Nat} {q : Int}

theorem RoundsTo.lt (h : RoundsTo v m q) : v < 2 ^ (53 + q) := by
  have hpos : (0 : ℚ) < 2 ^ q := by positivity
  have hm : (m : ℚ) + 1 ≤ 2 ^ (53 : Nat) := by exact_mod_cast h.canonical.lt
  have hupper := h.nearest.upper
  rw [zpow_add₀ two_ne_zero, ← div_lt_iff₀ hpos]
  calc v / 2 ^ q ≤ (m : ℚ) + 1 / 2 := hupper
    _ < 2 ^ (53 : Nat) := by linarith

theorem RoundsTo.ge (h : RoundsTo v m q) (hq : -1074 < q) : (2 ^ 52 - 1 / 4) * 2 ^ q ≤ v := by
  have hpos : (0 : ℚ) < 2 ^ q := by positivity
  rw [← le_div_iff₀ hpos]
  have hfull : 2 ^ 52 ≤ m := h.canonical.full.resolve_left (by omega)
  rcases Nat.eq_or_lt_of_le hfull with heq | hlt
  · have hclose := h.close heq.symm hq
    rw [← heq] at hclose
    push_cast at hclose
    exact hclose
  · have hm : (2 : ℚ) ^ 52 + 1 ≤ m := by exact_mod_cast hlt
    have hlower := h.nearest.lower
    linarith

/-- What lies below the power of two of a result has been rounded up to that power. -/
theorem RoundsTo.eq_of_lt (h : RoundsTo v m q) (hq : -1074 < q) (hv : v < 2 ^ (52 + q)) :
    m = 2 ^ 52 := by
  have hpos : (0 : ℚ) < 2 ^ q := by positivity
  have hfull : 2 ^ 52 ≤ m := h.canonical.full.resolve_left (by omega)
  by_contra hne
  have hm : (2 : ℚ) ^ 52 + 1 ≤ m := by exact_mod_cast (show 2 ^ 52 + 1 ≤ m by omega)
  have hlower := h.nearest.lower
  rw [zpow_add₀ two_ne_zero, ← div_lt_iff₀ hpos] at hv
  have hv' : v / 2 ^ q < (2 : ℚ) ^ 52 := hv
  linarith

/-- A mantissa and an exponent place a number between two powers of two. -/
theorem Represents.totalExponent_bounds {em : ExtendedMantissa} {e : Int} (hpos : 0 < em.mantissa)
    (h : Represents em (v / 2 ^ e)) :
    (2 : ℚ) ^ (totalExponent em.mantissa e - 1) ≤ v ∧ v < 2 ^ totalExponent em.mantissa e := by
  have hscale : (0 : ℚ) < 2 ^ e := by positivity
  obtain ⟨hlow, hhigh⟩ := h.bounds
  have hlog : (2 : ℚ) ^ em.mantissa.log2 ≤ em.mantissa := by
    exact_mod_cast Nat.log2_self_le hpos.ne'
  have hlog' : (em.mantissa : ℚ) + 1 ≤ 2 ^ (em.mantissa.log2 + 1) := by
    exact_mod_cast Nat.lt_log2_self
  constructor
  · rw [totalExponent, show ((em.mantissa.log2 : Int) + 1 + e - 1) = em.mantissa.log2 + e by omega,
      zpow_add₀ two_ne_zero, ← le_div_iff₀ hscale, zpow_natCast]
    exact hlog.trans hlow
  · rw [totalExponent, zpow_add₀ two_ne_zero, ← div_lt_iff₀ hscale]
    calc v / 2 ^ e < (em.mantissa : ℚ) + 1 := hhigh
      _ ≤ 2 ^ (em.mantissa.log2 + 1) := hlog'
      _ = 2 ^ ((em.mantissa.log2 : Int) + 1) := by norm_cast

/-- The grid that a result is first rounded on is that of its double, or the next finer one for a
result that is rounded up to a power of two. -/
theorem targetExponent_cases {em : ExtendedMantissa} {e : Int} (h : Represents em (v / 2 ^ e))
    (hem : 0 < em.mantissa ∨ e ≤ -1074) (hv : RoundsTo v m q) :
    Format.binary64.targetExponent (totalExponent em.mantissa e) = q ∨
      Format.binary64.targetExponent (totalExponent em.mantissa e) = q - 1 ∧ -1074 < q ∧
        m = 2 ^ 52 ∧ v < 2 ^ (52 + q) := by
  have hleast := hv.canonical.least
  have hone : (1 : ℚ) < 2 := one_lt_two
  rw [targetExponent_eq]
  -- what is left of the mantissa places the result between two powers of two
  by_cases hpos : 0 < em.mantissa
  · obtain ⟨hlow, hhigh⟩ := h.totalExponent_bounds hpos
    have hle : totalExponent em.mantissa e - 1 < 53 + q :=
      (zpow_lt_zpow_iff_right₀ hone).1 (hlow.trans_lt hv.lt)
    rcases lt_or_ge (-1074) q with hq | hq
    · have hge : (2 : ℚ) ^ (51 + q) < 2 ^ totalExponent em.mantissa e := by
        refine lt_of_lt_of_le ?_ (hv.ge hq |>.trans hhigh.le)
        rw [zpow_add₀ two_ne_zero]
        exact mul_lt_mul_of_pos_right (by norm_num) (by positivity)
      have hgt : 51 + q < totalExponent em.mantissa e := (zpow_lt_zpow_iff_right₀ hone).1 hge
      by_cases hnext : totalExponent em.mantissa e = 52 + q
      · have hlt : v < 2 ^ (52 + q) := by rwa [hnext] at hhigh
        exact .inr ⟨by omega, hq, hv.eq_of_lt hq hlt, hlt⟩
      · left
        omega
    · left
      omega
  · -- nothing of the mantissa is left, so the result is smaller than all steps but the least
    have hzero : em.mantissa = 0 := by omega
    have he : e ≤ -1074 := hem.resolve_left hpos
    have hsmall : v < 2 ^ e := by
      obtain ⟨-, hhigh⟩ := h.bounds
      rw [hzero, Nat.cast_zero, zero_add, div_lt_one (by positivity)] at hhigh
      exact hhigh
    have hq : q = -1074 := by
      by_contra hne
      have hq : -1074 < q := by omega
      have hge := hv.ge hq
      have hstep : (2 : ℚ) ^ e ≤ 2 ^ q := zpow_le_zpow_right₀ hone.le (by omega)
      have hscale : (0 : ℚ) < 2 ^ q := by positivity
      have hfactor : (2 : ℚ) ^ q ≤ (2 ^ 52 - 1 / 4) * 2 ^ q :=
        le_mul_of_one_le_left hscale.le (by norm_num)
      linarith
    left
    rw [hzero, totalExponent, show (0 : Nat).log2 = 0 from rfl]
    omega

/-- Rounding up to a power of two on the finer grid below it. -/
theorem RoundsTo.nearest_finer (h : RoundsTo v m q) (hq : -1074 < q) (hm : m = 2 ^ 52)
    (hv : v < 2 ^ (52 + q)) : Nearest (v / 2 ^ (q - 1)) (2 ^ 53) := by
  have hpos : (0 : ℚ) < 2 ^ q := by positivity
  have hfine : v / 2 ^ (q - 1) = 2 * (v / 2 ^ q) := by
    rw [zpow_sub_one₀ two_ne_zero, div_mul_eq_div_div, div_inv_eq_mul, mul_comm]
  have hclose := h.close hm hq
  rw [hm] at hclose
  rw [zpow_add₀ two_ne_zero, ← div_lt_iff₀ hpos] at hv
  have hv' : v / 2 ^ q < (2 : ℚ) ^ 52 := hv
  push_cast at hclose
  rw [hfine]
  refine ⟨?_, ?_, fun hodd => absurd hodd (by decide)⟩ <;> push_cast <;> linarith

theorem mantissa_ofMantissaAndAccuracy (M : Nat) (accuracy : Accuracy) :
    (ExtendedMantissa.ofMantissaAndAccuracy M accuracy).mantissa = M := by
  rcases accuracy with _ | _ | _ | _ <;> rfl

/-- The first shift brings a number to the grid that it is rounded on. -/
theorem Represents.shiftToTargetExponent {M : Nat} {accuracy : Accuracy} {e t : Int}
    (hx : Represents (ExtendedMantissa.ofMantissaAndAccuracy M accuracy) (v / 2 ^ e))
    (ht : Format.binary64.targetExponent (totalExponent M e) = t) (he : e ≤ t) :
    ∃ em, shiftToTargetExponent Format.binary64 M e accuracy = (em, t) ∧
      Represents em (v / 2 ^ t) := by
  have hexponent : e + ((t - e).toNat : Int) = t := by omega
  refine ⟨ExtendedMantissa.ofMantissaAndAccuracy M accuracy >>> (t - e).toNat, ?_, ?_⟩
  · simp only [UnpackedFloat.shiftToTargetExponent, shiftToExponent, ht, hexponent]
  · have hshifted := hx.shiftRight (t - e).toNat
    rwa [div_div, ← zpow_natCast, ← zpow_add₀ two_ne_zero, hexponent] at hshifted

/-- A mantissa and an exponent represent a number finely enough for rounding it. -/
structure Fine (v : ℚ) (M : Nat) (e : Int) (accuracy : Accuracy) : Prop where
  represents : Represents (ExtendedMantissa.ofMantissaAndAccuracy M accuracy) (v / 2 ^ e)
  exponent_le : e ≤ Format.binary64.targetExponent (totalExponent M e)
  pos_or_least : 0 < M ∨ e ≤ -1074

/-- **Rounding.** A mantissa and an exponent that represent a number, finely enough, are rounded to
the double that the number rounds to. -/
theorem roundWithAccuracy_eq {M : Nat} {accuracy : Accuracy} {e : Int} (h : Fine v M e accuracy)
    (hv : RoundsTo v m q) (sign : UnpackedFloat.Sign) :
    roundWithAccuracy Format.binary64 sign M e accuracy = .finite sign m q hv.canonical.pos := by
  obtain ⟨hx, he, hM⟩ := h
  have hleast := hv.canonical.least
  have hcases := targetExponent_cases hx
    (by rwa [mantissa_ofMantissaAndAccuracy]) hv
  rw [mantissa_ofMantissaAndAccuracy] at hcases
  rcases hcases with ht | ⟨ht, hq, hm, hlt⟩
  · -- on its own grid the result is rounded to its mantissa, which fits
    obtain ⟨em, hfirst, hem⟩ := hx.shiftToTargetExponent ht (ht ▸ he)
    have hrounded := hem.roundedMantissa_eq hv.nearest
    simp only [roundWithAccuracy, hfirst, hrounded,
      shiftToTargetExponent_small hv.canonical.lt hleast]
    rw [dif_neg hv.canonical.pos.ne']
  · -- on the finer grid the result is `2^53`, and the carry makes it `2^52` on the next
    obtain ⟨em, hfirst, hem⟩ := hx.shiftToTargetExponent ht (ht ▸ he)
    have hrounded := hem.roundedMantissa_eq (hv.nearest_finer hq hm hlt)
    have hcarry := shiftToTargetExponent_carry (show -1074 ≤ q - 1 by omega)
    rw [sub_add_cancel] at hcarry
    subst hm
    simp only [roundWithAccuracy, hfirst, hrounded, hcarry]
    rfl

/-! ## Operations -/

/-- An exact mantissa represents its number. -/
theorem represents_scaled (M : Nat) (e : Int) :
    Represents (ExtendedMantissa.ofMantissaAndAccuracy M .exact) ((M : ℚ) * 2 ^ e / 2 ^ e) := by
  rw [mul_div_cancel_right₀ _ (by positivity)]
  exact represents_exact M

/-- A mantissa with enough bits is at least as fine as the grid it is rounded on. -/
theorem le_targetExponent {M : Nat} {e : Int} (h : 52 ≤ M.log2 ∨ e ≤ -1074) :
    e ≤ Format.binary64.targetExponent (totalExponent M e) := by
  rw [targetExponent_eq, totalExponent]
  omega

theorem log2_shiftLeft {M : Nat} (hM : 0 < M) (n : Nat) : (M <<< n).log2 = M.log2 + n := by
  rw [Nat.shiftLeft_eq]
  have hpos : 0 < M * 2 ^ n := Nat.mul_pos hM (Nat.two_pow_pos n)
  rw [Nat.log2_eq_iff hpos.ne']
  have hlow := Nat.log2_self_le hM.ne'
  have hhigh : M < 2 ^ (M.log2 + 1) := Nat.lt_log2_self
  constructor
  · rw [pow_add]
    exact Nat.mul_le_mul_right _ hlow
  · rw [show M.log2 + n + 1 = M.log2 + 1 + n by omega, pow_add 2 (M.log2 + 1)]
    exact Nat.mul_lt_mul_of_pos_right hhigh (Nat.two_pow_pos n)

/-- An exact number whose mantissa has enough bits, or whose exponent is small enough. -/
theorem fine_exact {M : Nat} {e : Int} (hM : 0 < M) (h : 52 ≤ M.log2 ∨ e ≤ -1074) :
    Fine ((M : ℚ) * 2 ^ e) M e .exact :=
  ⟨represents_scaled M e, le_targetExponent h, .inl hM⟩

/-- A mantissa with too few bits is made longer, which changes nothing of the number. -/
theorem fine_shifted {M : Nat} (hM : 0 < M) (e : Int) :
    Fine ((M : ℚ) * 2 ^ e)
      (M <<< (e - Format.binary64.targetExponent (totalExponent M e)).toNat)
      (e - (e - Format.binary64.targetExponent (totalExponent M e)).toNat) .exact := by
  set target := Format.binary64.targetExponent (totalExponent M e) with htarget
  set shift := (e - target).toNat with hshift
  have hlog := log2_shiftLeft hM shift
  have htotal : totalExponent (M <<< shift) (e - shift) = totalExponent M e := by
    rw [totalExponent, totalExponent, hlog]
    omega
  have hvalue : ((M <<< shift : Nat) : ℚ) * 2 ^ (e - shift) = (M : ℚ) * 2 ^ e := by
    rw [Nat.shiftLeft_eq]
    push_cast
    rw [mul_assoc, ← zpow_natCast, ← zpow_add₀ two_ne_zero]
    congr 2
    omega
  have hrep := represents_scaled (M <<< shift) (e - shift)
  rw [hvalue] at hrep
  refine ⟨hrep, ?_, .inl ?_⟩
  · rw [htotal, ← htarget]
    omega
  · rw [Nat.shiftLeft_eq]
    positivity

/-- Rounding an exact number, whatever the size of its mantissa is. -/
theorem round_eq {M : Nat} (hM : 0 < M) (e : Int) (hv : RoundsTo ((M : ℚ) * 2 ^ e) m q)
    (sign : UnpackedFloat.Sign) :
    UnpackedFloat.round Format.binary64 sign M e = .finite sign m q hv.canonical.pos :=
  roundWithAccuracy_eq (fine_shifted hM e) hv sign

theorem cast_mul_scaled (m₁ m₂ : Nat) (e₁ e₂ : Int) :
    ((m₁ * m₂ : Nat) : ℚ) * 2 ^ (e₁ + e₂) = (m₁ : ℚ) * 2 ^ e₁ * (m₂ * 2 ^ e₂) := by
  rw [zpow_add₀ two_ne_zero]
  push_cast
  ring

/-- The product of two mantissas that have enough bits together. -/
theorem mul_eq {m₁ m₂ : Nat} {e₁ e₂ : Int} (h₁ : 0 < m₁) (h₂ : 0 < m₂)
    (hbits : 52 ≤ (m₁ * m₂).log2) (hv : RoundsTo ((m₁ : ℚ) * 2 ^ e₁ * (m₂ * 2 ^ e₂)) m q) :
    UnpackedFloat.mul Format.binary64 (.finite .positive m₁ e₁ h₁) (.finite .positive m₂ e₂ h₂) =
      .finite .positive m q hv.canonical.pos := by
  have hfine := fine_exact (e := e₁ + e₂) (Nat.mul_pos h₁ h₂) (.inl hbits)
  rw [cast_mul_scaled] at hfine
  exact roundWithAccuracy_eq hfine hv .positive

/-- The rest of a division says how the exact quotient lies. -/
theorem represents_quotient (a : Nat) {b : Nat} (hb : 0 < b) :
    Represents (ExtendedMantissa.ofMantissaAndAccuracy (a / b) (accuracyOfFraction (a % b) b))
      ((a : ℚ) / b) := by
  have hb' : (0 : ℚ) < b := by exact_mod_cast hb
  have hdiv : (b : ℚ) * ((a / b : Nat) : ℚ) + ((a % b : Nat) : ℚ) = a := by
    exact_mod_cast Nat.div_add_mod a b
  have hlt : ((a % b : Nat) : ℚ) < b := by exact_mod_cast Nat.mod_lt a hb
  rw [accuracyOfFraction]
  split
  · next hzero =>
    show (a : ℚ) / b = ((a / b : Nat) : ℚ)
    rw [hzero, Nat.cast_zero, add_zero] at hdiv
    rw [div_eq_iff hb'.ne', ← hdiv, mul_comm]
  · next hne =>
    have hrest : (0 : ℚ) < ((a % b : Nat) : ℚ) := by exact_mod_cast Nat.pos_of_ne_zero hne
    rcases lt_trichotomy (2 * (a % b)) b with hlow | hhalf | hhigh
    · have hlow' : 2 * ((a % b : Nat) : ℚ) < b := by exact_mod_cast hlow
      rw [Nat.compare_eq_lt.2 hlow]
      show ((a / b : Nat) : ℚ) < (a : ℚ) / b ∧ (a : ℚ) / b < ((a / b : Nat) : ℚ) + 1 / 2
      rw [lt_div_iff₀ hb', div_lt_iff₀ hb']
      constructor <;> linarith
    · have hhalf' : 2 * ((a % b : Nat) : ℚ) = b := by exact_mod_cast hhalf
      rw [Nat.compare_eq_eq.2 hhalf]
      show (a : ℚ) / b = ((a / b : Nat) : ℚ) + 1 / 2
      rw [div_eq_iff hb'.ne']
      linarith
    · have hhigh' : (b : ℚ) < 2 * ((a % b : Nat) : ℚ) := by exact_mod_cast hhigh
      rw [Nat.compare_eq_gt.2 hhigh]
      show ((a / b : Nat) : ℚ) + 1 / 2 < (a : ℚ) / b ∧ (a : ℚ) / b < ((a / b : Nat) : ℚ) + 1
      rw [lt_div_iff₀ hb', div_lt_iff₀ hb']
      constructor <;> linarith

/-- A quotient has at most one bit less than the lengths of its two parts say. -/
theorem log2_le_log2_div {a b : Nat} (ha : 0 < a) (hb : 0 < b) :
    a.log2 ≤ (a / b).log2 + b.log2 + 1 := by
  -- a dividend that is no longer than the divisor asks for nothing
  by_cases hlong : b.log2 < a.log2
  · have hquotient : 2 ^ (a.log2 - b.log2 - 1) ≤ a / b := by
      rw [Nat.le_div_iff_mul_le hb]
      calc 2 ^ (a.log2 - b.log2 - 1) * b
          ≤ 2 ^ (a.log2 - b.log2 - 1) * 2 ^ (b.log2 + 1) :=
            Nat.mul_le_mul_left _ Nat.lt_log2_self.le
        _ = 2 ^ a.log2 := by rw [← pow_add]; congr 1; omega
        _ ≤ a := Nat.log2_self_le ha.ne'
    have hpos : 0 < a / b := (Nat.two_pow_pos _).trans_le hquotient
    have := (Nat.le_log2 hpos.ne').2 hquotient
    omega
  · omega

/-- The dividend is made long enough for a quotient with all the bits that rounding needs. -/
theorem fine_quotient {m₁ m₂ : Nat} (h₁ : 0 < m₁) (h₂ : 0 < m₂) (e₁ e₂ : Int) :
    Fine ((m₁ : ℚ) * 2 ^ e₁ / (m₂ * 2 ^ e₂)) (divCore Format.binary64 m₁ e₁ m₂ e₂).1
      (divCore Format.binary64 m₁ e₁ m₂ e₂).2.1 (divCore Format.binary64 m₁ e₁ m₂ e₂).2.2 := by
  unfold divCore
  dsimp only
  set e := min (e₁ - e₂)
    (Format.binary64.targetExponent (totalExponent m₁ e₁ - totalExponent m₂ e₂)) with he
  set shift := (e₁ - e₂ - e).toNat with hshift
  have hpos : 0 < m₁ <<< shift := by
    rw [Nat.shiftLeft_eq]
    positivity
  have hlog := log2_shiftLeft h₁ shift
  have hquotient := log2_le_log2_div hpos h₂
  rw [targetExponent_eq, totalExponent, totalExponent] at he
  have hvalue : ((m₁ <<< shift : Nat) : ℚ) / m₂ =
      (m₁ : ℚ) * 2 ^ e₁ / (m₂ * 2 ^ e₂) / 2 ^ e := by
    have hm₂ : (m₂ : ℚ) ≠ 0 := by exact_mod_cast h₂.ne'
    have hscale : (2 : ℚ) ^ e₁ = 2 ^ shift * 2 ^ e₂ * 2 ^ e := by
      rw [← zpow_natCast, ← zpow_add₀ two_ne_zero, ← zpow_add₀ two_ne_zero]
      congr 1
      omega
    rw [Nat.shiftLeft_eq, hscale]
    push_cast
    field_simp
  have hrep := represents_quotient (m₁ <<< shift) h₂
  rw [hvalue] at hrep
  refine ⟨hrep, ?_, ?_⟩
  · rw [targetExponent_eq, totalExponent]
    omega
  · -- a quotient without any bit is finer than all doubles
    by_contra hnone
    simp only [not_or, not_lt, Nat.le_zero, not_le] at hnone
    rw [hnone.1, Nat.log2_zero] at hquotient
    omega

/-- The quotient of two positive doubles. -/
theorem div_eq {m₁ m₂ : Nat} {e₁ e₂ : Int} (h₁ : 0 < m₁) (h₂ : 0 < m₂)
    (hv : RoundsTo ((m₁ : ℚ) * 2 ^ e₁ / (m₂ * 2 ^ e₂)) m q) :
    UnpackedFloat.div Format.binary64 (.finite .positive m₁ e₁ h₁) (.finite .positive m₂ e₂ h₂) =
      .finite .positive m q hv.canonical.pos :=
  roundWithAccuracy_eq (fine_quotient h₁ h₂ e₁ e₂) hv .positive

end CurveArt.Binary64
