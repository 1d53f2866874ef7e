import CurveArt.Proofs.Json.Scaling
import CurveArt.Proofs.Json.StoredNumbers
import CurveArt.Proofs.Json.Values

/-!
# Doubles read from their own texts

The text of a double is a decimal that rounds to it, but it is read in a few rounded steps. What is
found is therefore not always the same double. It is always a finite one with the same sign, it is
near to the double written, and it does not pass the natural numbers that bound angles and shares.

The estimates fail at both ends of the range: a few of the greatest doubles might be read as more
than all of them, and the least one as zero. These doubles have been looked at one by one.

Main results:

* `exists_foundFor`: the double that is found for a positive one.
* `exists_rereads`: what a finite double is read as.
-/

namespace CurveArt.Json

open Binary64
open Decimal (render)

variable {m : Nat} {q : Int} {n : Nat} {x y : Float} {exponent : Int}

/-! ## Exponents of stored decimals -/

/-- What is not less than half the least double is not written with many places. -/
theorem le_exponent (hlt : n < 2 ^ 64) (h : 2 ^ (-1075 : Int) ≤ (n : ℚ) * 10 ^ exponent) :
    -343 ≤ exponent := by
  by_contra hsmall
  have hpowers : (2 : ℚ) ^ (64 : Nat) * 2 ^ (1075 : Nat) ≤ 10 ^ (344 : Nat) := by
    exact_mod_cast (by decide +kernel : 2 ^ 64 * 2 ^ 1075 ≤ 10 ^ 344)
  have hword : (n : ℚ) < 2 ^ (64 : Nat) := by exact_mod_cast hlt
  have hbelow : (n : ℚ) * 10 ^ exponent < 2 ^ (-1075 : Int) := by
    calc (n : ℚ) * 10 ^ exponent ≤ n * 10 ^ (-344 : Int) := by
          gcongr
          · norm_num
          · omega
      _ < 2 ^ (64 : Nat) * 10 ^ (-344 : Int) := by gcongr
      _ = 2 ^ (64 : Nat) / 10 ^ (344 : Nat) := by
          rw [show (-344 : Int) = -((344 : Nat) : Int) from rfl, zpow_neg, zpow_natCast,
            div_eq_mul_inv]
      _ ≤ 1 / 2 ^ (1075 : Nat) := by
          rw [div_le_div_iff₀ (by positivity) (by positivity), one_mul]
          exact hpowers
      _ = 2 ^ (-1075 : Int) := by
          rw [show (-1075 : Int) = -((1075 : Nat) : Int) from rfl, zpow_neg, zpow_natCast, one_div]
  exact absurd h (not_le.2 hbelow)

theorem leading_natAbs_le (hc : Canonical m q) (tie : Decimal.Tie) :
    (leading (Decimal.shortest tie m q)).natAbs ≤ maxExponent := by
  have hrounds := Decimal.shortest_roundsTo tie hc
  have hlow := le_exponent (Decimal.shortest_digits_lt tie hc) hrounds.least_le
  have hlength : 0 < (Nat.toDigits 10 (Decimal.shortest tie m q).digits).length :=
    Nat.length_toDigits_pos
  have hdef : leading (Decimal.shortest tie m q) =
      (Nat.toDigits 10 (Decimal.shortest tie m q).digits).length - 1 +
        (Decimal.shortest tie m q).exponent := rfl
  have hhigh : (10 : ℚ) ^ leading (Decimal.shortest tie m q) < 10 ^ (309 : Int) := by
    calc (10 : ℚ) ^ leading (Decimal.shortest tie m q)
        ≤ (Decimal.shortest tie m q).digits * 10 ^ (Decimal.shortest tie m q).exponent :=
          tenPow_leading_le (Decimal.shortest_digits_pos tie hc)
      _ < 2 ^ (53 + q) := hrounds.lt
      _ ≤ 2 ^ (1024 : Int) := zpow_le_zpow_right₀ one_le_two (by have := hc.greatest; omega)
      _ ≤ 10 ^ (309 : Int) := by
          exact_mod_cast (by decide +kernel : 2 ^ 1024 ≤ 10 ^ 309)
  have := (zpow_lt_zpow_iff_right₀ (by norm_num : (1 : ℚ) < 10)).1 hhigh
  rw [maxExponent]
  omega

/-! ## From the decimal to the double found -/

/-- A number is not far from the double that it rounds to. -/
theorem abs_sub_le_of_roundsTo {v : ℚ} (h : RoundsTo v m q) :
    |v - m * 2 ^ q| ≤ m * 2 ^ q * unit + 2 ^ (-1075 : Int) := by
  have hpos : (0 : ℚ) < 2 ^ q := by positivity
  have hunit := unit_pos
  have hhalf : |v - m * 2 ^ q| ≤ 1 / 2 * 2 ^ q := by
    have hscale : v - m * 2 ^ q = (v / 2 ^ q - m) * 2 ^ q := by
      rw [sub_mul, div_mul_cancel₀ v hpos.ne']
    rw [hscale, abs_mul, abs_of_pos hpos]
    refine mul_le_mul_of_nonneg_right (abs_le.2 ⟨?_, ?_⟩) hpos.le
    · linarith [h.nearest.lower]
    · linarith [h.nearest.upper]
  rcases h.canonical.full with rfl | hfull
  · have hleast : (1 : ℚ) / 2 * 2 ^ (-1074 : Int) = 2 ^ (-1075 : Int) := by
      rw [show (-1075 : Int) = -1 + -1074 from rfl, zpow_add₀ two_ne_zero]
      norm_num
    rw [hleast] at hhalf
    have : 0 ≤ (m : ℚ) * 2 ^ (-1074 : Int) * unit := by positivity
    linarith
  · have hm : (1 : ℚ) ≤ m * unit := by
      rw [unit, mul_one_div, le_div_iff₀ (by positivity), one_mul]
      exact_mod_cast hfull
    have hpart : (1 : ℚ) / 2 * 2 ^ q ≤ m * 2 ^ q * unit := by
      rw [mul_right_comm]
      gcongr
      linarith
    have : (0 : ℚ) ≤ 2 ^ (-1075 : Int) := by positivity
    linarith

/-- What approximates a number that rounds to a double is near to the double. -/
theorem near_of_approximates {v : ℚ} (h : RoundsTo v m q) (hy : Approximates 15 v y) :
    |value y - m * 2 ^ q| ≤ m * 2 ^ q / 2 ^ (46 : Nat) + 2 ^ (-1074 : Int) := by
  obtain ⟨w, hw, hclose, hbelow⟩ := hy
  have hunit := mul_unit_le (c := 15) (by norm_num)
  have hleast := h.canonical.least_le_value
  have hpos : (0 : ℚ) < m * 2 ^ q := h.canonical.value_pos
  have hv : 0 < v := lt_of_lt_of_le (by positivity) h.least_le
  have hwpos := hclose.pos hv (by norm_num)
  have hhalves : (2 : ℚ) ^ (-1075 : Int) + 2 ^ (-1075 : Int) = 2 ^ (-1074 : Int) := by
    rw [show (-1075 : Int) = -1 + -1074 from rfl, zpow_add₀ two_ne_zero]
    ring
  have hu := unit_pos
  have hu' : unit ≤ 1 / 4 := by
    rw [unit]
    norm_num
  have hproduct : m * 2 ^ q * unit ≤ m * 2 ^ q * (1 / 4) := mul_le_mul_of_nonneg_left hu' hpos.le
  -- three steps from the double found to the double written
  have hfirst := hw.error_le_part (by rwa [abs_of_pos hwpos])
  have hsecond : |w - v| ≤ 15 * unit * v :=
    abs_le.2 ⟨by linarith [hclose.lower], by linarith [hclose.upper]⟩
  have hthird := abs_sub_le_of_roundsTo h
  have hvle : v ≤ 2 * (m * 2 ^ q) := by linarith [(abs_le.1 hthird).2]
  have hwle : w ≤ 4 * (m * 2 ^ q) := by
    have : 15 * unit * v ≤ 1 / 1000000 * v := mul_le_mul_of_nonneg_right hunit hv.le
    linarith [(abs_le.1 hsecond).2]
  have hscaled : |w| / 2 ^ (53 : Nat) ≤ 2 * (m * 2 ^ q * unit) := by
    rw [abs_of_pos hwpos, unit]
    linarith
  have hscaled' : 15 * unit * v ≤ 30 * (m * 2 ^ q * unit) := by
    calc 15 * unit * v ≤ 15 * unit * (2 * (m * 2 ^ q)) := by gcongr
      _ = 30 * (m * 2 ^ q * unit) := by ring
  have htotal : (m : ℚ) * 2 ^ q / 2 ^ (46 : Nat) = 64 * (m * 2 ^ q * unit) := by
    rw [unit]
    ring
  have hpart : 0 ≤ (m : ℚ) * 2 ^ q * unit := by positivity
  rw [htotal]
  calc |value y - m * 2 ^ q| ≤ |w - value y| + |w - v| + |v - m * 2 ^ q| := by
        have := abs_sub_le (value y) w (m * 2 ^ q)
        have := abs_sub_le w v (m * 2 ^ q)
        have := abs_sub_comm (value y) w
        linarith
    _ ≤ 64 * (m * 2 ^ q * unit) + 2 ^ (-1074 : Int) := by linarith

/-- What approximates a number that rounds to a double is positive, unless that is the least one. -/
theorem pos_of_approximates {v : ℚ} (h : RoundsTo v m q) (hy : Approximates 15 v y)
    (hne : m ≠ 1 ∨ q ≠ -1074) : 0 < value y := by
  obtain ⟨w, hw, hclose, -⟩ := hy
  have hunit := mul_unit_le (c := 15) (by norm_num)
  have hcanonical : Canonical 1 (-1074) := ⟨one_pos, by decide, le_rfl, by decide, .inl rfl⟩
  have hleast := unpacked_packed hcanonical .positive one_pos
  have hvalue : value (packed (.finite .positive 1 (-1074) one_pos)) = 2 ^ (-1074 : Int) := by
    rw [value_eq hleast]
    exact one_mul _
  have hm : 2 ≤ m := by
    have hpos := h.canonical.pos
    rcases h.canonical.full with hq | hfull
    · have := hne.resolve_right (not_not.2 hq)
      omega
    · exact le_trans (by decide) hfull
  have hm' : (2 : ℚ) ≤ m := by exact_mod_cast hm
  have hv : 3 / 2 * 2 ^ (-1074 : Int) ≤ v := by
    have hhalf : (3 : ℚ) / 2 ≤ m - 1 / 2 := by linarith
    have hpower : (2 : ℚ) ^ (-1074 : Int) ≤ 2 ^ q :=
      zpow_le_zpow_right₀ one_le_two h.canonical.least
    calc (3 : ℚ) / 2 * 2 ^ (-1074 : Int) ≤ (m - 1 / 2) * 2 ^ q := by
          exact mul_le_mul hhalf hpower (by positivity) (by linarith)
      _ ≤ v := by
          rw [← le_div_iff₀ (by positivity)]
          exact h.nearest.lower
  have hpos : (0 : ℚ) < 2 ^ (-1074 : Int) := by positivity
  have hlow : value (packed (.finite .positive 1 (-1074) one_pos)) ≤ w := by
    rw [hvalue]
    calc (2 : ℚ) ^ (-1074 : Int) ≤ 3 / 2 * 2 ^ (-1074 : Int) * (1 - 15 * unit) := by
          have : 3 / 2 * (2 : ℚ) ^ (-1074 : Int) * (15 * unit) ≤
              3 / 2 * 2 ^ (-1074 : Int) * (1 / 1000000) := by gcongr
          linarith
      _ ≤ v * (1 - 15 * unit) := mul_le_mul_of_nonneg_right hv (by linarith)
      _ ≤ w := hclose.lower
  have hle := hw.ge (isFinite_of_unpacked hleast) hlow
  rw [hvalue] at hle
  exact hpos.trans_le hle

/-- Only a few of the greatest doubles could be read as more than all of them. -/
theorem lt_overflowBound_of_roundsTo {v : ℚ} (h : RoundsTo v m q)
    (hsmall : m + 16 < 2 ^ 53 ∨ q < 971) : v * (1 + 6 * unit) < overflowBound := by
  have hq := h.canonical.greatest
  have hlt : (m : ℚ) + 1 ≤ 2 ^ (53 : Nat) := by exact_mod_cast h.canonical.lt
  have hupper : v ≤ (m + 1 / 2) * 2 ^ q := by
    rw [← div_le_iff₀ (by positivity)]
    exact h.nearest.upper
  have hu := unit_pos
  have htop : (0 : ℚ) < 2 ^ (971 : Int) := by positivity
  have hpower : (2 : ℚ) ^ q ≤ 2 ^ (971 : Int) := zpow_le_zpow_right₀ one_le_two hq
  have hpower' : q < 971 → (2 : ℚ) ^ q ≤ 1 / 2 * 2 ^ (971 : Int) := by
    intro hq
    calc (2 : ℚ) ^ q ≤ 2 ^ (-1 + 971 : Int) := zpow_le_zpow_right₀ one_le_two (by omega)
      _ = 1 / 2 * 2 ^ (971 : Int) := by
          rw [zpow_add₀ two_ne_zero]
          norm_num
  rw [overflowBound_eq]
  refine lt_of_le_of_lt (mul_le_mul_of_nonneg_right hupper (by positivity)) ?_
  rw [mul_right_comm]
  generalize (2 : ℚ) ^ (971 : Int) = top at htop hpower hpower' ⊢
  rcases hsmall with hm | hq
  · -- the errors are at most twelve steps between the greatest doubles
    have hm' : (m : ℚ) + 17 ≤ 2 ^ (53 : Nat) := by exact_mod_cast hm
    calc (m + 1 / 2) * (1 + 6 * unit) * 2 ^ q
        ≤ (2 ^ (53 : Nat) - 17 + 1 / 2) * (1 + 6 * unit) * top := by
          gcongr
          linarith
      _ < (2 ^ (53 : Nat) - 1 / 2) * top := by
          refine mul_lt_mul_of_pos_right ?_ htop
          rw [unit]
          norm_num
  · calc (m + 1 / 2) * (1 + 6 * unit) * 2 ^ q
        ≤ 2 ^ (53 : Nat) * (1 + 6 * unit) * (1 / 2 * top) := by
          gcongr
          · linarith
          · exact hpower' hq
      _ = 2 ^ (53 : Nat) * (1 + 6 * unit) / 2 * top := by ring
      _ < (2 ^ (53 : Nat) - 1 / 2) * top := by
          refine mul_lt_mul_of_pos_right ?_ htop
          rw [unit]
          norm_num

/-! ## The ends of the range -/

/-- Whether the double `m · 2^q` is read as a double that differs from it by at most sixteen
steps. -/
def isReadNear (m : Nat) (q : Int) : Bool :=
  match readMagnitude false (render .stored (Decimal.shortest .toEven m q)) with
  | .ok (.float y, []) =>
    match unpacked y with
    | .finite .positive m' q' _ => q' == q && decide (m ≤ m' + 16) && decide (m' ≤ m + 16)
    | _ => false
  | _ => false

/-- The greatest doubles are not read as more than all of them. -/
theorem isReadNear_greatest : ∀ i : Fin 16, isReadNear (2 ^ 53 - 1 - i) 971 = true := by
  decide +kernel

theorem isReadNear_least : isReadNear 1 (-1074) = true := by
  decide +kernel

theorem exists_of_isReadNear (h : isReadNear m q = true) : ∃ y m' hm',
    readMagnitude false (render .stored (Decimal.shortest .toEven m q)) = .ok (.float y, []) ∧
      unpacked y = .finite .positive m' q hm' ∧ m ≤ m' + 16 ∧ m' ≤ m + 16 := by
  unfold isReadNear at h
  split at h
  · next y hread =>
    split at h
    · next m' q' hm' hy =>
      simp only [Bool.and_eq_true, beq_iff_eq, decide_eq_true_eq] at h
      obtain ⟨⟨rfl, hlow⟩, hhigh⟩ := h
      exact ⟨y, m', hm', hread, hy, hlow, hhigh⟩
    · cases h
  · cases h

/-! ## The double that is found -/

/-- What is known of the double that is found for the text of `m · 2^q`. -/
structure FoundFor (m : Nat) (q : Int) (y : Float) : Prop where
  isFinite : y.isFinite = true
  pos : 0 < value y
  near : |value y - m * 2 ^ q| ≤ m * 2 ^ q / 2 ^ (46 : Nat) + 2 ^ (-1074 : Int)
  le : ∀ c : Nat, IsShort c → (m : ℚ) * 2 ^ q < c → value y ≤ c

theorem IsShort.lt {c : Nat} (h : IsShort c) : c < 10 ^ 16 := by
  obtain ⟨a, b, rfl, -, hshort, hb⟩ := h
  have hpower : 2 ^ b ≤ 2 ^ 20 := Nat.pow_le_pow_right (by decide) hb
  calc a * 2 ^ b ≤ 100 * 2 ^ 20 := Nat.mul_le_mul (by omega) hpower
    _ < 10 ^ 16 := by decide

/-- A double below a short number has a decimal that is at most the number. -/
theorem le_of_roundsTo {v : ℚ} (h : RoundsTo v m q) {c : Nat} (hc : IsShort c)
    (hlt : (m : ℚ) * 2 ^ q < c) : v ≤ c := by
  obtain ⟨z, hz, hvalue⟩ := hc.exists_double (k := 0) (by decide)
  rw [pow_zero, mul_one] at hvalue
  by_contra hgt
  -- the number is a double, and nearer to the decimal
  have hrounds := rounds_finite h .positive h.canonical.pos
  have hge := hrounds.ge hz (hvalue.trans_le (not_le.1 hgt).le)
  rw [hvalue, value_eq (unpacked_packed h.canonical .positive h.canonical.pos)] at hge
  exact absurd hlt (not_lt.2 hge)

theorem eq_some_of_readAs {found : Option Float}
    (h : readAs false found = .ok (.float y, [])) : found = some y := by
  cases found with
  | none => cases h
  | some z =>
    cases h
    rfl

/-- A significand that differs by sixteen steps from a great one is near to it. -/
theorem near_of_steps {m' : Nat} (hlarge : 2 ^ 53 ≤ m + 16) (hlow : m ≤ m' + 16)
    (hhigh : m' ≤ m + 16) :
    |(m' : ℚ) * 2 ^ q - m * 2 ^ q| ≤ m * 2 ^ q / 2 ^ (46 : Nat) + 2 ^ (-1074 : Int) := by
  have hlow' : (m : ℚ) ≤ m' + 16 := by exact_mod_cast hlow
  have hhigh' : (m' : ℚ) ≤ m + 16 := by exact_mod_cast hhigh
  have hlarge' : (2 : ℚ) ^ (53 : Nat) ≤ m + 16 := by exact_mod_cast hlarge
  have hpos : (0 : ℚ) < 2 ^ q := by positivity
  have hsteps : |(m' : ℚ) - m| ≤ m / 2 ^ (46 : Nat) := by
    rw [le_div_iff₀ (by positivity)]
    calc |(m' : ℚ) - m| * 2 ^ (46 : Nat) ≤ 16 * 2 ^ (46 : Nat) := by
          gcongr
          exact abs_le.2 ⟨by linarith, by linarith⟩
      _ ≤ m := by linarith
  have hscaled : |(m' : ℚ) * 2 ^ q - m * 2 ^ q| ≤ m * 2 ^ q / 2 ^ (46 : Nat) := by
    rw [← sub_mul, abs_mul, abs_of_pos hpos, mul_div_right_comm]
    exact mul_le_mul_of_nonneg_right hsteps hpos.le
  have hleast : (0 : ℚ) ≤ 2 ^ (-1074 : Int) := by positivity
  linarith

section Found

/-! The text of `m · 2^q` is read as `n` and an exponent, which stand for a decimal that rounds to
it. -/

variable (hrounds : RoundsTo (n * 10 ^ exponent) m q) (hpos : 0 < n) (hlt : n < 2 ^ 64)

include hrounds hpos hlt

/-- What is found does not pass a short number. -/
theorem le_of_scaled? (hneg : (n : ℚ) * 10 ^ exponent < 10 ^ 16 → exponent < 0)
    (hy : scaled? n.toUInt64.toFloat exponent = some y) {c : Nat} (hc : IsShort c)
    (hbelow : (m : ℚ) * 2 ^ q < c) : value y ≤ c := by
  have hlow := le_exponent hlt hrounds.least_le
  have hle := le_of_roundsTo hrounds hc hbelow
  have hsmall : (n : ℚ) * 10 ^ exponent < 10 ^ 16 := hle.trans_lt (by exact_mod_cast hc.lt)
  exact scaled?_le hc hpos hlt (by omega) (hneg hsmall) hle hy

/-- Away from the greatest doubles, what is found approximates the decimal. -/
theorem exists_approximates (hsmall : m + 16 < 2 ^ 53 ∨ q < 971) :
    ∃ y, scaled? n.toUInt64.toFloat exponent = some y ∧
      Approximates 15 (n * 10 ^ exponent) y := by
  have hlow := le_exponent hlt hrounds.least_le
  have hbound : 0 ≤ exponent → (n : ℚ) * 10 ^ exponent * (1 + 6 * unit) < overflowBound :=
    fun _ => lt_overflowBound_of_roundsTo hrounds hsmall
  exact scaled?_toFloat hpos hlt (by omega) hbound

end Found

theorem scaled?_of_isReadNear (h : isReadNear m q = true)
    (hread : ∀ negative, readMagnitude negative (render .stored (Decimal.shortest .toEven m q)) =
      readAs negative (scaled? n.toUInt64.toFloat exponent)) :
    ∃ y m' hm', scaled? n.toUInt64.toFloat exponent = some y ∧
      unpacked y = .finite .positive m' q hm' ∧ m ≤ m' + 16 ∧ m' ≤ m + 16 := by
  obtain ⟨y, m', hm', hy, hnear⟩ := exists_of_isReadNear h
  rw [hread] at hy
  exact ⟨y, m', hm', eq_some_of_readAs hy, hnear⟩

/-- **A positive double is read as a double near to it.** -/
theorem exists_foundFor (hc : Canonical m q) : ∃ y, FoundFor m q y ∧ ∀ negative,
    readMagnitude negative (render .stored (Decimal.shortest .toEven m q)) =
      readAs negative (some y) := by
  obtain ⟨n, exponent, hn, hread⟩ := exists_significand (Decimal.shortest_digits_pos .toEven hc)
    (Decimal.shortest_digits_lt .toEven hc) (leading_natAbs_le hc .toEven)
  have hrounds := Decimal.shortest_roundsTo .toEven hc
  have hneg := hn.neg
  rw [← hn.value_eq] at hrounds hneg
  -- the estimates do not reach the greatest doubles and the least one
  by_cases hgreatest : 2 ^ 53 ≤ m + 16 ∧ q = 971
  · obtain ⟨hm, rfl⟩ := hgreatest
    have hlt := hc.lt
    have htable := isReadNear_greatest ⟨2 ^ 53 - 1 - m, by omega⟩
    simp only [show 2 ^ 53 - 1 - (2 ^ 53 - 1 - m) = m by omega] at htable
    obtain ⟨y, m', hm', hy, hunpacked, hlower, hupper⟩ := scaled?_of_isReadNear htable hread
    have hvalue : value y = m' * 2 ^ (971 : Int) := value_eq hunpacked
    refine ⟨y, ⟨isFinite_of_unpacked hunpacked, ?_, ?_, fun c =>
      le_of_scaled? hrounds hn.pos hn.lt hneg hy⟩, fun negative => by rw [hread, hy]⟩
    · have : (0 : ℚ) < m' := by exact_mod_cast hm'
      rw [hvalue]
      positivity
    · rw [hvalue]
      exact near_of_steps hm hlower hupper
  · have hsmall : m + 16 < 2 ^ 53 ∨ q < 971 := by
      have := hc.greatest
      omega
    obtain ⟨y, hy, happroximates⟩ := exists_approximates hrounds hn.pos hn.lt hsmall
    -- the least double is not read as zero, and what is read for others is at least that
    have hpos : 0 < value y := by
      by_cases hleast : m = 1 ∧ q = -1074
      · obtain ⟨rfl, rfl⟩ := hleast
        obtain ⟨z, m', hm', hz, hunpacked, -⟩ := scaled?_of_isReadNear isReadNear_least hread
        obtain rfl := Option.some.inj (hz.symm.trans hy)
        have : (0 : ℚ) < m' := by exact_mod_cast hm'
        rw [value_eq hunpacked]
        show (0 : ℚ) < m' * _
        positivity
      · exact pos_of_approximates hrounds happroximates (by omega)
    have hfinite : y.isFinite = true := by
      obtain ⟨w, hw, -⟩ := happroximates
      exact hw.isFinite
    exact ⟨y, ⟨hfinite, hpos, near_of_approximates hrounds happroximates, fun c =>
      le_of_scaled? hrounds hn.pos hn.lt hneg hy⟩, fun negative => by rw [hread, hy]⟩

/-! ## Texts of doubles -/

/-- A number without its sign begins with a digit. -/
theorem exists_digit_of_magnitude {found : Number} {text : List Char} {negative : Bool}
    (h : readMagnitude negative text = .ok (found, [])) :
    ∃ c tail, text = c :: tail ∧ c.isDigit = true := by
  cases text with
  | nil => cases h
  | cons c tail =>
    refine ⟨c, tail, rfl, ?_⟩
    by_contra hdigit
    rw [readMagnitude_eq, List.takeWhile_cons_of_neg hdigit] at h
    cases h

theorem readFloat_of_magnitude {text : List Char}
    (h : readMagnitude false text = .ok (.float y, [])) :
    readFloat text = .ok (y, []) := by
  obtain ⟨c, tail, rfl, hdigit⟩ := exists_digit_of_magnitude h
  have hminus : c ≠ '-' := by
    rintro rfl
    cases hdigit
  have hstarts : startsNumber (c :: tail) = true := by
    show (c == '-' || c.isDigit) = true
    rw [hdigit, Bool.or_true]
  have hnumber : readAnyNumber "f64" (c :: tail) = .ok (.float y, []) := by
    unfold readAnyNumber
    rw [skipBlanks_cons (isBlank_of_isDigit hdigit), if_pos hstarts, readNumber_of_ne hminus, h]
  rw [readFloat_eq, hnumber]
  rfl

theorem readFloat_of_negative {text : List Char}
    (h : readMagnitude true text = .ok (.float y, [])) :
    readFloat ('-' :: text) = .ok (y, []) := by
  have hnumber : readAnyNumber "f64" ('-' :: text) = .ok (.float y, []) := by
    unfold readAnyNumber
    rw [skipBlanks_cons rfl]
    exact h
  rw [readFloat_eq, hnumber]
  rfl

theorem floatText_of_unpacked {sign : Float.Model.UnpackedFloat.Sign} {hm : 0 < m}
    (hx : unpacked x = .finite sign m q hm) :
    floatText x = (if isMinus sign = true then ['-'] else []) ++
      render .stored (Decimal.shortest .toEven m q) := by
  rw [floatText, NumberStyle.render, decode_eq, hx]
  simp only [partsOf, if_neg hm.ne', String.toList_ofList]
  cases isMinus sign <;> rfl

/-! ## What doubles are read as -/

/-- What is known of the double that the text of a finite one is read as. -/
structure Rereads (x y : Float) : Prop where
  readsAs : ReadsAs x y
  isFinite : y.isFinite = true
  near : |value y - value x| ≤ |value x| / 2 ^ (46 : Nat) + 2 ^ (-1074 : Int)
  pos : 0 < value x → 0 < value y
  neg : value x < 0 → value y < 0
  zero : value x = 0 → y = x
  le : ∀ c : Nat, IsShort c → value x < c → value y ≤ c

theorem readsAs_of_toOption (h : (readFloat (floatText x)).toOption = some (y, [])) :
    ReadsAs x y := by
  unfold ReadsAs
  cases hread : readFloat (floatText x) with
  | error e =>
    rw [hread] at h
    cases h
  | ok found =>
    rw [hread] at h
    exact congrArg Except.ok (Option.some.inj h)

/-- The two zeros are read as they are. -/
theorem rereads_zero {sign : Float.Model.UnpackedFloat.Sign} (hx : unpacked x = .zero sign) :
    Rereads x x := by
  have hvalue : value x = 0 := value_eq hx
  have hreads : ReadsAs x x := by
    cases sign with
    | positive =>
      obtain rfl : x = 0.0 := unpacked_injective hx
      exact readsAs_of_toOption (by decide +kernel)
    | negative =>
      obtain rfl : x = -0.0 := unpacked_injective hx
      exact readsAs_of_toOption (by decide +kernel)
  refine ⟨hreads, ?_, ?_, ?_, ?_, fun _ => rfl, fun c _ h => h.le⟩
  · rw [isFinite_eq, hx]
    rfl
  · rw [sub_self, abs_zero]
    positivity
  · exact id
  · exact id

/-- **Finite doubles are read as finite doubles** of the same sign, near to them. -/
theorem exists_rereads (hx : x.isFinite = true) : ∃ y, Rereads x y := by
  rcases cases_of_isFinite hx with ⟨sign, hzero⟩ | ⟨sign, m, q, hm, hparts, hc⟩
  · exact ⟨x, rereads_zero hzero⟩
  -- a sign stands before the text of the magnitude, and nothing else depends on it
  obtain ⟨y, hy, hread⟩ := exists_foundFor hc
  have hpos := hc.value_pos
  have htext := floatText_of_unpacked hparts
  cases sign with
  | positive =>
    have hvalue : value x = m * 2 ^ q := value_eq hparts
    refine ⟨y, ?_, hy.isFinite, ?_, fun _ => hy.pos, ?_, ?_, fun c hshort hlt => ?_⟩
    · rw [ReadsAs, htext]
      exact readFloat_of_magnitude (hread false)
    · rw [hvalue, abs_of_pos hpos]
      exact hy.near
    · intro hneg
      linarith
    · intro hzero
      linarith
    · exact hy.le c hshort (hvalue ▸ hlt)
  | negative =>
    have hvalue : value x = -(m * 2 ^ q) := value_eq hparts
    refine ⟨-y, ?_, by rw [isFinite_neg]; exact hy.isFinite, ?_, ?_, ?_, ?_, fun c _ _ => ?_⟩
    · rw [ReadsAs, htext]
      exact readFloat_of_negative (hread true)
    · have hdistance : value (-y) - value x = -(value y - m * 2 ^ q) := by
        rw [value_neg, hvalue]
        ring
      rw [hdistance, abs_neg, hvalue, abs_neg, abs_of_pos hpos]
      exact hy.near
    · intro hpos'
      linarith
    · intro _
      rw [value_neg]
      linarith [hy.pos]
    · intro hzero
      linarith
    · have hc' : (0 : ℚ) ≤ c := Nat.cast_nonneg c
      rw [value_neg]
      linarith [hy.pos]

end CurveArt.Json
