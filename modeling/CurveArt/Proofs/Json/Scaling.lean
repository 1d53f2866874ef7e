import CurveArt.Json.Number
import CurveArt.Proofs.Binary64.Overflow
import CurveArt.Proofs.Binary64.Powers

/-!
# Significands and powers of ten

A number in a JSON text is a significand of one word times a power of ten. The reader makes both of
them doubles and multiplies or divides, twice for the smallest numbers. Each of these steps is
rounded, so the double that is found is not always the nearest to the number; but it is the nearest
to a number that is close to it. Where the power of ten and a bound are doubles, no step goes beyond
the bound.

Main results:

* `scaled?_toFloat`: the double that is found is near to the number.
* `scaled?_le`: a number that is at most a small natural number is not read as more than that.
-/

namespace CurveArt.Json

open Binary64

variable {n : Nat} {x : Float}

theorem one_le_tenPow (k : Nat) : (1 : ℚ) ≤ 10 ^ k :=
  one_le_pow₀ (by norm_num)

/-- What is at least one is not among the least doubles. -/
theorem least_le_of_one_le {v : ℚ} (h : 1 ≤ v) : 2 ^ (-1024 : Int) ≤ v :=
  (zpow_le_one_of_nonpos₀ one_le_two (by decide)).trans h

theorem rounds_powerOfTen {k : Nat} (h : k ≤ 308) : Rounds (10 ^ k) (powerOfTen k) :=
  rounds_tenPow h

theorem close_powerOfTen {k : Nat} (h : k ≤ 308) :
    Close (5 / 2) (10 ^ k) (value (powerOfTen k)) :=
  (rounds_powerOfTen h).close (least_le_of_one_le (one_le_tenPow k)) (tenPow_lt_overflowBound h)

theorem wordBound_lt : (2 : ℚ) ^ (64 : Nat) < overflowBound :=
  lt_of_lt_of_le (by norm_num) (tenPow_lt_overflowBound (k := 20) (by decide)).le

theorem close_toFloat (hn : 0 < n) (hlt : n < 2 ^ 64) :
    Close (5 / 2) n (value n.toUInt64.toFloat) := by
  have hone : (1 : ℚ) ≤ n := by exact_mod_cast hn
  have hword : (n : ℚ) < 2 ^ (64 : Nat) := by exact_mod_cast hlt
  exact (rounds_toFloat hlt).close (least_le_of_one_le hone) (hword.trans wordBound_lt)

/-- The double is nearest to a number that is close to `d`. -/
def Approximates (c d : ℚ) (y : Float) : Prop :=
  ∃ v, Rounds v y ∧ Close c d v ∧ v < overflowBound

variable {c c' e d d' : ℚ} {x y : Float}

theorem approximates_mul (hx : x.isFinite = true) (hy : y.isFinite = true)
    (h : Close c d (value x)) (h' : Close c' d' (value y)) (hd : 0 < d) (hd' : 0 < d')
    (hc : 0 ≤ c) (hc' : 0 ≤ c') (hsum : c + c' + 1 ≤ e) (he : e ≤ 20)
    (hbound : d * d' * (1 + e * unit) < overflowBound) : Approximates e (d * d') (x * y) := by
  have hclose := (h.mul h' hd hd' hc hc' (by linarith) (by linarith)).weaken (mul_pos hd hd') hsum
  have hpos := mul_pos (h.pos hd (by linarith)) (h'.pos hd' (by linarith))
  have hbelow := hclose.upper.trans_lt hbound
  refine ⟨_, rounds_mul hx hy ?_, hclose, hbelow⟩
  rwa [abs_of_pos hpos]

theorem approximates_div (hx : x.isFinite = true) (hy : y.isFinite = true)
    (h : Close c d (value x)) (h' : Close c' d' (value y)) (hd : 0 < d) (hd' : 1 ≤ d')
    (hc : 0 ≤ c) (hc' : 0 ≤ c') (hsum : c + c' + 2 ≤ e) (he : e ≤ 20)
    (hsmall : d ≤ 2 ^ (64 : Nat)) : Approximates e (d / d') (x / y) := by
  have hd'' : 0 < d' := by linarith
  have hclose := (h.div h' hd hd'' hc hc' (by linarith) (by linarith)).weaken
    (div_pos hd hd'') hsum
  have hposy := h'.pos hd'' (by linarith)
  have hpos := div_pos (h.pos hd (by linarith)) hposy
  have hbelow : value x / value y < overflowBound := by
    have hquotient : d / d' ≤ 2 ^ (64 : Nat) := (div_le_self hd.le hd').trans hsmall
    have hunit := mul_unit_le (c := e) (by linarith)
    have hunit' : 0 ≤ e * unit := mul_nonneg (by linarith) unit_pos.le
    calc value x / value y ≤ d / d' * (1 + e * unit) := hclose.upper
      _ ≤ 2 ^ (64 : Nat) * 2 := by
          gcongr
          linarith
      _ < overflowBound :=
          lt_of_lt_of_le (by norm_num) (tenPow_lt_overflowBound (k := 20) (by decide)).le
  refine ⟨_, rounds_div hx hy hposy.ne' ?_, hclose, hbelow⟩
  rwa [abs_of_pos hpos]

theorem scaled?_nonneg {E : Int} (h : 0 ≤ E) (h' : E ≤ 308)
    (hfinite : (x * powerOfTen E.toNat).isFinite = true) :
    scaled? x E = some (x * powerOfTen E.toNat) := by
  rw [scaled?, if_neg (by omega), if_pos h]
  simp only [isInf_of_isFinite hfinite, Bool.false_eq_true, if_false]

theorem scaled?_neg {k : Nat} (hpos : 0 < k) (hk : k ≤ 308) :
    scaled? x (-k) = some (x / powerOfTen k) := by
  rw [scaled?, if_neg (by omega), if_neg (by omega), if_pos (by omega), Int.natAbs_neg,
    Int.natAbs_natCast]

theorem scaled?_far {k : Nat} (hpos : 0 < k) (hne : (x == 0.0) = false) :
    scaled? x (-(308 + k : Nat)) = scaled? (x / powerOfTen 308) (-k) := by
  rw [scaled?, if_neg (by omega), if_neg (by omega), if_neg (by omega), hne,
    if_neg Bool.false_ne_true]
  congr 1
  push_cast
  omega

theorem overflowBound_lt_tenPow : overflowBound < (10 : ℚ) ^ (309 : Nat) := by
  have hpowers : (2 : ℚ) ^ (1024 : Nat) ≤ 10 ^ (309 : Nat) := by
    exact_mod_cast (by decide +kernel : 2 ^ 1024 ≤ 10 ^ 309)
  exact lt_of_lt_of_le (sub_lt_self _ (by positivity)) hpowers

/-- A quotient of a significand by the greatest power of ten is not among the least doubles. -/
theorem least_le_far {v : ℚ} (hn : 0 < n) (h : Close 7 (n / 10 ^ 308) v) :
    2 ^ (-1024 : Int) ≤ v := by
  have hone : (1 : ℚ) ≤ n := by exact_mod_cast hn
  have hunit := mul_unit_le (c := 7) (by norm_num)
  have hpowers : (10 : ℚ) ^ (308 : Nat) * 1000000 ≤ 999999 * 2 ^ (1024 : Nat) := by
    exact_mod_cast (by decide +kernel : 10 ^ 308 * 1000000 ≤ 999999 * 2 ^ 1024)
  have hswap : ∀ {s t : ℚ}, 0 < s → 0 < t → s * 1000000 ≤ 999999 * t →
      t⁻¹ ≤ 1 / s * (999999 / 1000000) := by
    intro s t hs ht h
    rw [inv_eq_one_div, div_mul_div_comm, div_le_div_iff₀ ht (by positivity), one_mul, one_mul]
    exact h
  calc (2 : ℚ) ^ (-1024 : Int) = (2 ^ (1024 : Nat))⁻¹ := by
        rw [show (-1024 : Int) = -((1024 : Nat) : Int) from rfl, zpow_neg, zpow_natCast]
    _ ≤ 1 / 10 ^ (308 : Nat) * (999999 / 1000000) :=
        hswap (by positivity) (by positivity) hpowers
    _ ≤ n / 10 ^ (308 : Nat) * (1 - 7 * unit) := by
        gcongr
        linarith
    _ ≤ v := h.lower

theorem isFinite_powerOfTen {k : Nat} (h : k ≤ 308) : (powerOfTen k).isFinite = true :=
  (rounds_powerOfTen h).isFinite

/-- A significand is divided by a power of ten that is a double. -/
theorem scaled?_divided {k : Nat} (hn : 0 < n) (hlt : n < 2 ^ 64) (hpos : 0 < k) (hk : k ≤ 308) :
    ∃ y, scaled? n.toUInt64.toFloat (-k) = some y ∧ Approximates 7 (n / 10 ^ k) y := by
  have hn' : (0 : ℚ) < n := by exact_mod_cast hn
  have hword : (n : ℚ) ≤ 2 ^ (64 : Nat) := by exact_mod_cast hlt.le
  exact ⟨_, scaled?_neg hpos hk, approximates_div (rounds_toFloat hlt).isFinite
    (isFinite_powerOfTen hk) (close_toFloat hn hlt) (close_powerOfTen hk) hn' (one_le_tenPow k)
    (by norm_num) (by norm_num) (by norm_num) (by norm_num) hword⟩

/-- For smaller numbers it is divided twice, first by the greatest of these powers. -/
theorem scaled?_dividedTwice {k : Nat} (hn : 0 < n) (hlt : n < 2 ^ 64) (hpos : 0 < k)
    (hk : k ≤ 308) : ∃ y, scaled? n.toUInt64.toFloat (-(308 + k : Nat)) = some y ∧
      Approximates 15 (n / 10 ^ (308 + k)) y := by
  have hn' : (0 : ℚ) < n := by exact_mod_cast hn
  have hword : (n : ℚ) ≤ 2 ^ (64 : Nat) := by exact_mod_cast hlt.le
  have hne : (n.toUInt64.toFloat == 0.0) = false := by
    rw [Bool.eq_false_iff, Ne, beq_iff_value (rounds_toFloat hlt).isFinite rfl]
    exact ((close_toFloat hn hlt).pos hn' (by norm_num)).ne'
  have hquotient : (0 : ℚ) < n / 10 ^ 308 := by positivity
  have hsmall : (n : ℚ) / 10 ^ 308 ≤ 2 ^ (64 : Nat) :=
    (div_le_self hn'.le (one_le_tenPow 308)).trans hword
  -- the first quotient is large enough to be close to the exact one
  obtain ⟨z, hz, v, hv, hclose, hbelow⟩ := scaled?_divided hn hlt (k := 308) (by decide) le_rfl
  obtain rfl := Option.some.inj ((scaled?_neg (by decide) le_rfl).symm.trans hz)
  have hw := hclose.trans (hv.close (least_le_far hn hclose) hbelow) hquotient (by norm_num)
    (by norm_num) (by norm_num) (by norm_num)
  refine ⟨_, (scaled?_far hpos hne).trans (scaled?_neg hpos hk), ?_⟩
  rw [pow_add, ← div_div]
  exact approximates_div hv.isFinite (isFinite_powerOfTen hk) hw (close_powerOfTen hk) hquotient
    (one_le_tenPow k) (by norm_num) (by norm_num) (by norm_num) (by norm_num) hsmall

/-- No number below the bound of all doubles has more than 308 zeros. -/
theorem le_of_lt_overflowBound {k : Nat} (hn : 0 < n)
    (h : (n : ℚ) * 10 ^ k * (1 + 6 * unit) < overflowBound) : k ≤ 308 := by
  by_contra hlarge
  have hone : (1 : ℚ) ≤ n := by exact_mod_cast hn
  have hunit : 0 ≤ 6 * unit := mul_nonneg (by norm_num) unit_pos.le
  have hpower : (10 : ℚ) ^ (309 : Nat) ≤ 10 ^ k := pow_le_pow_right₀ (by norm_num) (by omega)
  have hproduct : (10 : ℚ) ^ k ≤ n * 10 ^ k * (1 + 6 * unit) := by
    calc (10 : ℚ) ^ k = 1 * 10 ^ k * 1 := by ring
      _ ≤ n * 10 ^ k * (1 + 6 * unit) := by
          gcongr
          linarith
  exact absurd (hpower.trans hproduct) (not_le.2 (h.trans overflowBound_lt_tenPow))

/-- A significand is multiplied with a power of ten. -/
theorem scaled?_multiplied {k : Nat} (hn : 0 < n) (hlt : n < 2 ^ 64)
    (hbound : (n : ℚ) * 10 ^ k * (1 + 6 * unit) < overflowBound) :
    ∃ y, scaled? n.toUInt64.toFloat k = some y ∧ Approximates 6 (n * 10 ^ k) y := by
  have hk := le_of_lt_overflowBound hn hbound
  have happroximates := approximates_mul (rounds_toFloat hlt).isFinite (isFinite_powerOfTen hk)
    (close_toFloat hn hlt) (close_powerOfTen hk) (by exact_mod_cast hn) (by positivity)
    (by norm_num) (by norm_num) (by norm_num) (by norm_num) hbound
  obtain ⟨v, hv, hnear⟩ := happroximates
  exact ⟨_, scaled?_nonneg (Int.natCast_nonneg k) (by omega) hv.isFinite, v, hv, hnear⟩

theorem Approximates.weaken (h : Approximates c d y) (hd : 0 < d) (hle : c ≤ c') :
    Approximates c' d y := by
  obtain ⟨v, hv, hclose, hbelow⟩ := h
  exact ⟨v, hv, hclose.weaken hd hle, hbelow⟩

/-- **A significand and a power of ten** make up a double near to the number they stand for. -/
theorem scaled?_toFloat {E : Int} (hn : 0 < n) (hlt : n < 2 ^ 64) (hlow : -616 ≤ E)
    (hhigh : 0 ≤ E → (n : ℚ) * 10 ^ E * (1 + 6 * unit) < overflowBound) :
    ∃ y, scaled? n.toUInt64.toFloat E = some y ∧ Approximates 15 (n * 10 ^ E) y := by
  have hn' : (0 : ℚ) < n := by exact_mod_cast hn
  rcases lt_or_ge E 0 with hneg | hnonneg
  · obtain ⟨k, rfl⟩ : ∃ k : Nat, E = -k := ⟨E.natAbs, by omega⟩
    rw [zpow_neg, zpow_natCast, ← div_eq_mul_inv]
    by_cases hk : k ≤ 308
    · obtain ⟨y, hy, happroximates⟩ := scaled?_divided hn hlt (by omega) hk
      exact ⟨y, hy, happroximates.weaken (by positivity) (by norm_num)⟩
    · obtain ⟨j, rfl⟩ : ∃ j : Nat, k = 308 + j := ⟨k - 308, by omega⟩
      exact scaled?_dividedTwice hn hlt (by omega) (by omega)
  · obtain ⟨k, rfl⟩ : ∃ k : Nat, E = k := ⟨E.toNat, by omega⟩
    have hbound := hhigh hnonneg
    rw [zpow_natCast] at hbound ⊢
    obtain ⟨y, hy, happroximates⟩ := scaled?_multiplied hn hlt hbound
    exact ⟨y, hy, happroximates.weaken (by positivity) (by norm_num)⟩

/-! ## Bounds -/

/-- A natural number that is a double with up to twenty zeros behind it. -/
def IsShort (c : Nat) : Prop :=
  ∃ a b, c = a * 2 ^ b ∧ 0 < a ∧ a * 5 ^ 20 < 2 ^ 53 ∧ b ≤ 20

theorem IsShort.pos {c : Nat} (h : IsShort c) : 0 < c := by
  obtain ⟨a, b, rfl, ha, -, -⟩ := h
  exact Nat.mul_pos ha (Nat.pow_pos (by decide))

theorem IsShort.exists_double {c : Nat} (h : IsShort c) {k : Nat} (hk : k ≤ 20) :
    ∃ z : Float, z.isFinite = true ∧ value z = c * 10 ^ k := by
  obtain ⟨a, b, rfl, ha, hshort, hb⟩ := h
  have hle : a * 5 ^ k ≤ a * 5 ^ 20 :=
    Nat.mul_le_mul_left a (Nat.pow_le_pow_right (by decide) hk)
  obtain ⟨z, hfinite, hz⟩ := exists_natural (c := a * 5 ^ k) (j := b + k)
    (Nat.mul_pos ha (Nat.pow_pos (by decide))) (hle.trans_lt hshort) (by omega)
  refine ⟨z, hfinite, hz.trans ?_⟩
  rw [show (10 : ℚ) = 5 * 2 by norm_num, mul_pow, pow_add]
  push_cast
  ring

theorem isShort_one : IsShort 1 :=
  ⟨1, 0, rfl, one_pos, by decide, Nat.zero_le _⟩

theorem value_powerOfTen {k : Nat} (h : k ≤ 20) : value (powerOfTen k) = 10 ^ k := by
  obtain ⟨z, hz, hvalue⟩ := isShort_one.exists_double h
  rw [Nat.cast_one, one_mul] at hvalue
  have hrounds : Rounds (10 ^ k) (powerOfTen k) := rounds_powerOfTen (by omega)
  rw [← hvalue] at hrounds ⊢
  exact hrounds.eq hz

/-- With few places, the power of ten and the bound are doubles, so the significand is compared
without an error. -/
theorem scaled?_le_near {c k : Nat} (hc : IsShort c) {z : Float} (hz : z.isFinite = true)
    (hvalue : value z = c) (hlt : n < 2 ^ 64) (hk : k ≤ 20) (hle : (n : ℚ) / 10 ^ k ≤ c) :
    value (n.toUInt64.toFloat / powerOfTen k) ≤ c := by
  obtain ⟨b, hb, hbound⟩ := hc.exists_double hk
  have hten := value_powerOfTen hk
  have hpos : (0 : ℚ) < 10 ^ k := by positivity
  have hword := rounds_toFloat hlt
  rw [div_le_iff₀ hpos, ← hbound] at hle
  have hquotient : value n.toUInt64.toFloat / value (powerOfTen k) ≤ value z := by
    rw [hten, hvalue, div_le_iff₀ hpos, ← hbound]
    exact hword.le hb hle
  have hbelow : |value n.toUInt64.toFloat / value (powerOfTen k)| < overflowBound := by
    rw [abs_of_nonneg (by rw [hten]; exact div_nonneg (hword.nonneg n.cast_nonneg) hpos.le)]
    exact hquotient.trans_lt ((le_abs_self _).trans_lt (abs_value_lt hz))
  have hne : value (powerOfTen k) ≠ 0 := by
    rw [hten]
    exact hpos.ne'
  rw [← hvalue]
  exact (rounds_div hword.isFinite (isFinite_powerOfTen (by omega)) hne hbelow).le hz hquotient

/-- With many places, what is found is below one. -/
theorem le_one_of_approximates {k : Nat} {v : ℚ} (hlt : n < 2 ^ 64) (hk : 21 ≤ k)
    (hclose : Close 15 (n / 10 ^ k) v) : v ≤ 1 := by
  have hunit := mul_unit_le (c := 15) (by norm_num)
  have hunit' : 0 ≤ 15 * unit := mul_nonneg (by norm_num) unit_pos.le
  have hword : (n : ℚ) ≤ 2 ^ (64 : Nat) := by exact_mod_cast hlt.le
  have hpower : (10 : ℚ) ^ (21 : Nat) ≤ 10 ^ k := pow_le_pow_right₀ (by norm_num) hk
  calc v ≤ n / 10 ^ k * (1 + 15 * unit) := hclose.upper
    _ ≤ 2 ^ (64 : Nat) / 10 ^ (21 : Nat) * 2 := by
        gcongr
        linarith
    _ ≤ 1 := by norm_num

/-- **A number that is at most a short natural number** is not read as more than that. -/
theorem scaled?_le {c : Nat} (hc : IsShort c) {E : Int} {y : Float} (hn : 0 < n)
    (hlt : n < 2 ^ 64) (hlow : -616 ≤ E) (hneg : E < 0) (hle : (n : ℚ) * 10 ^ E ≤ c)
    (hy : scaled? n.toUInt64.toFloat E = some y) : value y ≤ c := by
  obtain ⟨z, hz, hvalue⟩ := hc.exists_double (k := 0) (by decide)
  rw [pow_zero, mul_one] at hvalue
  obtain ⟨k, rfl⟩ : ∃ k : Nat, E = -k := ⟨E.natAbs, by omega⟩
  by_cases hk : k ≤ 20
  · rw [scaled?_neg (by omega) (by omega)] at hy
    obtain rfl := Option.some.inj hy
    rw [zpow_neg, zpow_natCast, ← div_eq_mul_inv] at hle
    exact scaled?_le_near hc hz hvalue hlt hk hle
  · obtain ⟨y', hy', v, hv, hclose, -⟩ := scaled?_toFloat hn hlt hlow (by omega)
    obtain rfl := Option.some.inj (hy.symm.trans hy')
    rw [zpow_neg, zpow_natCast, ← div_eq_mul_inv] at hclose
    have hone : (1 : ℚ) ≤ c := by exact_mod_cast hc.pos
    rw [← hvalue] at hone ⊢
    exact hv.le hz ((le_one_of_approximates hlt (by omega) hclose).trans hone)

end CurveArt.Json
