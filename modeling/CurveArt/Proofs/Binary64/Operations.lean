import CurveArt.Proofs.Binary64.Nearest

/-!
# Arithmetic on finite doubles

Every operation on finite doubles gives the double nearest to the exact result, as long as that is
not beyond all doubles.

Main results: `rounds_add`, `rounds_sub`, `rounds_mul`, `rounds_div` and `sqrt_spec`, one for each
operation, and `value_ofCount` for natural numbers.
-/

namespace CurveArt.Binary64

open Float.Model (Format UnpackedFloat totalExponent)
open Float.Model.UnpackedFloat

variable {v w : ℚ} {x y : Float}

/-! ## Signs -/

theorem value_neg (x : Float) : value (-x) = -value x := by
  rw [value, value, unpacked_neg]
  cases unpacked x with
  | notANumber => exact neg_zero.symm
  | infinity sign => exact neg_zero.symm
  | zero sign => exact neg_zero.symm
  | finite sign m q h =>
    cases sign with
    | positive => rfl
    | negative => exact (neg_neg _).symm

theorem signed_mul (s s' : UnpackedFloat.Sign) (v w : ℚ) :
    signed (s * s') (v * w) = signed s v * signed s' w := by
  cases s <;> cases s'
  · exact (neg_mul_neg v w).symm
  · exact (neg_mul v w).symm
  · exact (mul_neg v w).symm
  · rfl

theorem signed_div (s s' : UnpackedFloat.Sign) (v w : ℚ) :
    signed (s / s') (v / w) = signed s v / signed s' w := by
  cases s <;> cases s'
  · exact (neg_div_neg_eq v w).symm
  · exact (neg_div w v).symm
  · exact (div_neg v).symm
  · rfl

theorem unpacked_abs (x : Float) : unpacked x.abs = UnpackedFloat.abs (unpacked x) := by
  show unpacked (packed (UnpackedFloat.abs (unpacked x))) = _
  cases hx : unpacked x with
  | notANumber => rfl
  | infinity sign => cases sign <;> rfl
  | zero sign => cases sign <;> rfl
  | finite sign m q h => exact unpacked_packed (canonical_of_unpacked hx) .positive h

theorem isFinite_abs (x : Float) : x.abs.isFinite = x.isFinite := by
  rw [isFinite_eq, isFinite_eq, unpacked_abs]
  cases unpacked x <;> rfl

theorem value_abs (x : Float) : value x.abs = |value x| := by
  rw [value, value, unpacked_abs]
  cases unpacked x with
  | notANumber => exact abs_zero.symm
  | infinity sign => exact abs_zero.symm
  | zero sign => exact abs_zero.symm
  | finite sign m q h =>
    show (m : ℚ) * 2 ^ q = |signed sign (m * 2 ^ q)|
    rw [abs_signed, abs_of_nonneg (by positivity)]

/-! ## Exact results -/

theorem value_zero : value 0.0 = 0 := rfl

theorem Rounds.nonneg (h : Rounds v x) (hv : 0 ≤ v) : 0 ≤ value x := by
  rw [← value_zero] at hv ⊢
  exact h.ge rfl hv

theorem rounds_value (hx : x.isFinite = true) : Rounds (value x) x := by
  refine ⟨hx, fun y _ => ?_⟩
  rw [sub_self, abs_zero]
  exact abs_nonneg _

theorem rounds_zero_packed (sign : UnpackedFloat.Sign) : Rounds 0 (packed (.zero sign)) := by
  have h := rounds_zero le_rfl (show (0 : ℚ) ≤ 2 ^ (-1075 : Int) by positivity) sign
  have hzero : signed sign 0 = 0 := by
    cases sign with
    | positive => rfl
    | negative => exact neg_zero
  rwa [hzero] at h

/-! ## Sums and differences -/

theorem rounds_round {M : Nat} (hM : 0 < M) (e : Int) (h : (M : ℚ) * 2 ^ e < overflowBound)
    (sign : UnpackedFloat.Sign) :
    Rounds (signed sign ((M : ℚ) * 2 ^ e)) (packed (UnpackedFloat.round Format.binary64 sign M e)) :=
  rounds_roundWithAccuracy (fine_shifted hM e) (by positivity) h sign

/-- A whole number of steps. -/
theorem rounds_normalize (n : Int) (e : Int) (h : |(n : ℚ) * 2 ^ e| < overflowBound)
    (zeroSign : UnpackedFloat.Sign) :
    Rounds ((n : ℚ) * 2 ^ e) (packed (UnpackedFloat.normalize Format.binary64 n e zeroSign)) := by
  have hscale : (0 : ℚ) < 2 ^ e := by positivity
  rw [abs_mul, abs_of_pos hscale] at h
  unfold UnpackedFloat.normalize
  rcases lt_trichotomy n 0 with hneg | rfl | hpos
  · have hcast : ((-n).toNat : ℚ) = -n := by
      exact_mod_cast congrArg (Int.cast (R := ℚ)) (Int.toNat_of_nonneg (show 0 ≤ -n by omega))
    have hn : (n : ℚ) < 0 := by exact_mod_cast hneg
    rw [compare_lt_iff_lt.2 hneg]
    rw [abs_of_neg hn, ← hcast] at h
    have hrounds := rounds_round (show 0 < (-n).toNat by omega) e h .negative
    have hvalue : signed .negative (((-n).toNat : ℚ) * 2 ^ e) = n * 2 ^ e := by
      show -(((-n).toNat : ℚ) * 2 ^ e) = n * 2 ^ e
      rw [hcast]
      ring
    rwa [hvalue] at hrounds
  · rw [compare_eq_iff_eq.2 rfl, Int.cast_zero, zero_mul]
    exact rounds_zero_packed zeroSign
  · have hcast : (n.toNat : ℚ) = n := by
      exact_mod_cast congrArg (Int.cast (R := ℚ)) (Int.toNat_of_nonneg hpos.le)
    have hn : (0 : ℚ) < n := by exact_mod_cast hpos
    rw [compare_gt_iff_gt.2 hpos]
    rw [abs_of_pos hn, ← hcast] at h
    have hrounds := rounds_round (show 0 < n.toNat by omega) e h .positive
    have hvalue : signed .positive ((n.toNat : ℚ) * 2 ^ e) = n * 2 ^ e := by
      show (n.toNat : ℚ) * 2 ^ e = n * 2 ^ e
      rw [hcast]
    rwa [hvalue] at hrounds

/-- A longer mantissa for the same number. -/
theorem signed_decreased (sign : UnpackedFloat.Sign) (m : Nat) {e t : Int} (h : t ≤ e) :
    ((sign.apply ((decreaseExponent m e t).1 : Int) : Int) : ℚ) * 2 ^ t = signed sign (m * 2 ^ e) := by
  have hvalue : ((m <<< (e - t).toNat : Nat) : ℚ) * 2 ^ t = m * 2 ^ e := by
    rw [Nat.shiftLeft_eq]
    push_cast
    rw [mul_assoc, ← zpow_natCast, ← zpow_add₀ two_ne_zero]
    congr 2
    omega
  cases sign with
  | positive => exact hvalue
  | negative =>
    show ((-((m <<< (e - t).toNat : Nat) : Int) : Int) : ℚ) * 2 ^ t = -((m : ℚ) * 2 ^ e)
    rw [← hvalue, Int.cast_neg, Int.cast_natCast, neg_mul]

theorem add_eq_packed (x y : Float) :
    x + y = packed (UnpackedFloat.add Format.binary64 (unpacked x) (unpacked y)) :=
  rfl

/-- The sum of two doubles other than zero is a whole number of steps, and is rounded once. -/
theorem add_parts {s s' : UnpackedFloat.Sign} {m m' : Nat} {q q' : Int} {hm : 0 < m} {hm' : 0 < m'}
    (hx : unpacked x = .finite s m q hm) (hy : unpacked y = .finite s' m' q' hm') :
    ∃ n e : Int, value x + value y = n * 2 ^ e ∧
      x + y = packed (UnpackedFloat.normalize Format.binary64 n e .positive) := by
  refine ⟨s.apply ((decreaseExponent m q (min q q')).1 : Int) +
    s'.apply ((decreaseExponent m' q' (min q q')).1 : Int), min q q', ?_, ?_⟩
  · rw [value_eq hx, value_eq hy, Int.cast_add, add_mul,
      signed_decreased s m (min_le_left q q'), signed_decreased s' m' (min_le_right q q')]
    rfl
  · rw [add_eq_packed, hx, hy]
    rfl

/-- **Sums are rounded.** -/
theorem rounds_add (hx : x.isFinite = true) (hy : y.isFinite = true)
    (h : |value x + value y| < overflowBound) : Rounds (value x + value y) (x + y) := by
  rcases cases_of_isFinite hx with ⟨s, hx'⟩ | ⟨s, m, q, hm, hx', -⟩
  · rw [value_eq hx', valueOf_zero, zero_add]
    rcases cases_of_isFinite hy with ⟨s', hy'⟩ | ⟨s', m', q', hm', hy', -⟩
    · rw [value_eq hy', valueOf_zero, add_eq_packed, hx', hy']
      cases s <;> cases s' <;> exact rounds_zero_packed _
    · have hsum : x + y = y := by
        rw [add_eq_packed, hx', hy']
        exact (congrArg packed hy').symm.trans (packed_unpacked y)
      rw [hsum]
      exact rounds_value hy
  · rcases cases_of_isFinite hy with ⟨s', hy'⟩ | ⟨s', m', q', hm', hy', -⟩
    · have hsum : x + y = x := by
        rw [add_eq_packed, hx', hy']
        exact (congrArg packed hx').symm.trans (packed_unpacked x)
      rw [value_eq hy', valueOf_zero, add_zero, hsum]
      exact rounds_value hx
    · obtain ⟨n, e, hvalue, hsum⟩ := add_parts hx' hy'
      rw [hvalue] at h ⊢
      rw [hsum]
      exact rounds_normalize n e h .positive

/-- A difference is the sum with the negative. -/
theorem sub_eq_add_neg (x y : Float) : x - y = x + -y := by
  rw [sub_eq_packed, add_eq_packed, unpacked_neg]
  cases unpacked x with
  | notANumber => rfl
  | infinity s =>
    cases unpacked y with
    | infinity s' => rfl
    | notANumber | zero | finite => rfl
  | zero s =>
    cases unpacked y with
    | notANumber | infinity | zero | finite => rfl
  | finite s m q h =>
    cases unpacked y with
    | notANumber | infinity | zero => rfl
    | finite s' m' q' h' =>
      refine congrArg
        (fun n => packed (UnpackedFloat.normalize Format.binary64 n (min q q') .positive)) ?_
      cases s' with
      | positive => exact Int.sub_eq_add_neg
      | negative => exact sub_neg_eq_add _ _

/-- **Differences are rounded.** -/
theorem rounds_sub (hx : x.isFinite = true) (hy : y.isFinite = true)
    (h : |value x - value y| < overflowBound) : Rounds (value x - value y) (x - y) := by
  have hvalue : value x - value y = value x + value (-y) := by
    rw [value_neg]
    ring
  rw [hvalue] at h ⊢
  rw [sub_eq_add_neg]
  exact rounds_add hx ((isFinite_neg y).trans hy) h

/-! ## Products and quotients -/

/-- **Products are rounded.** -/
theorem rounds_mul (hx : x.isFinite = true) (hy : y.isFinite = true)
    (h : |value x * value y| < overflowBound) : Rounds (value x * value y) (x * y) := by
  rw [mul_eq_packed]
  rcases cases_of_isFinite hx with ⟨s, hx⟩ | ⟨s, m, q, hm, hx, hc⟩
  · rw [value_eq hx, valueOf_zero, zero_mul, hx]
    rcases cases_of_isFinite hy with ⟨s', hy⟩ | ⟨s', m', q', hm', hy, -⟩ <;> rw [hy] <;>
      exact rounds_zero_packed _
  · rcases cases_of_isFinite hy with ⟨s', hy⟩ | ⟨s', m', q', hm', hy, hc'⟩
    · rw [value_eq hy, valueOf_zero, mul_zero, hx, hy]
      exact rounds_zero_packed _
    · have hpos : 0 < m * m' := Nat.mul_pos hm hm'
      have hvalue : value x * value y = signed (s * s') (((m * m' : Nat) : ℚ) * 2 ^ (q + q')) := by
        rw [value_eq hx, value_eq hy, cast_mul_scaled, signed_mul]
        rfl
      have hfine : 52 ≤ (m * m').log2 ∨ q + q' ≤ -1074 := by
        -- one long mantissa is enough, and without one both exponents are least
        by_cases hlong : 2 ^ 52 ≤ m * m'
        · exact .inl ((Nat.le_log2 hpos.ne').2 hlong)
        · have hshort : m ≤ m * m' := Nat.le_mul_of_pos_right m hm'
          have hshort' : m' ≤ m * m' := Nat.le_mul_of_pos_left m' hm
          have hq := hc.full.resolve_right (by omega)
          have hq' := hc'.full.resolve_right (by omega)
          exact .inr (by omega)
      rw [hvalue, abs_signed, abs_of_pos (by positivity)] at h
      rw [hvalue, hx, hy]
      exact rounds_roundWithAccuracy (fine_exact hpos hfine) (by positivity) h (s * s')

/-- **Quotients are rounded.** -/
theorem rounds_div (hx : x.isFinite = true) (hy : y.isFinite = true) (hne : value y ≠ 0)
    (h : |value x / value y| < overflowBound) : Rounds (value x / value y) (x / y) := by
  rw [div_eq_packed]
  rcases cases_of_isFinite hy with ⟨s', hy⟩ | ⟨s', m', q', hm', hy, hc'⟩
  · exact absurd (value_eq hy) hne
  · rcases cases_of_isFinite hx with ⟨s, hx⟩ | ⟨s, m, q, hm, hx, hc⟩
    · rw [value_eq hx, valueOf_zero, zero_div, hx, hy]
      exact rounds_zero_packed _
    · have hvalue : value x / value y =
          signed (s / s') ((m : ℚ) * 2 ^ q / (m' * 2 ^ q')) := by
        rw [value_eq hx, value_eq hy, signed_div]
        rfl
      have hpos : (0 : ℚ) ≤ (m : ℚ) * 2 ^ q / (m' * 2 ^ q') := by positivity
      rw [hvalue, abs_signed, abs_of_nonneg hpos] at h
      rw [hvalue, hx, hy]
      exact rounds_roundWithAccuracy (fine_quotient hm hm' q q') hpos h (s / s')

/-! ## Beyond the finite doubles -/

theorem isNaN_packed {u : UnpackedFloat} (h : u = .notANumber) : (packed u).isNaN = true := by
  rw [h]
  rfl

theorem add_isNaN (x : Float) (h : y.isNaN = true) : (x + y).isNaN = true := by
  rw [add_eq_packed, unpacked_of_isNaN h]
  refine isNaN_packed ?_
  cases unpacked x <;> rfl

theorem mul_isNaN (x : Float) (h : y.isNaN = true) : (x * y).isNaN = true := by
  rw [mul_eq_packed, unpacked_of_isNaN h]
  refine isNaN_packed ?_
  cases unpacked x <;> rfl

theorem div_isNaN (h : x.isNaN = true) (y : Float) : (x / y).isNaN = true := by
  rw [div_eq_packed, unpacked_of_isNaN h]
  exact isNaN_packed rfl

/-- There is no distance between two infinities. -/
theorem infinity_sub_infinity (hx : unpacked x = .infinity .positive)
    (hy : unpacked y = .infinity .positive) : (x - y).isNaN = true := by
  rw [sub_eq_packed, hx, hy]
  exact isNaN_packed rfl

theorem infinity_div_infinity (hx : unpacked x = .infinity .positive)
    (hy : unpacked y = .infinity .positive) : (x / y).isNaN = true := by
  rw [div_eq_packed, hx, hy]
  exact isNaN_packed rfl

theorem infinity_add (hx : unpacked x = .infinity .positive) (hy : y.isFinite = true) :
    unpacked (x + y) = .infinity .positive := by
  have hadd : UnpackedFloat.add Format.binary64 (.infinity .positive) (unpacked y) =
      .infinity .positive := by
    rcases cases_of_isFinite hy with ⟨s, hy⟩ | ⟨s, m, q, hm, hy, -⟩ <;> rw [hy] <;> rfl
  rw [add_eq_packed, hx, hadd]
  rfl

theorem infinity_sub (hx : unpacked x = .infinity .positive) (hy : y.isFinite = true) :
    unpacked (x - y) = .infinity .positive := by
  rw [sub_eq_add_neg]
  exact infinity_add hx ((isFinite_neg y).trans hy)

/-- Nothing finite is a part of infinity. -/
theorem rounds_div_infinity (hx : x.isFinite = true) (hy : unpacked y = .infinity .positive) :
    Rounds 0 (x / y) := by
  rw [div_eq_packed, hy]
  rcases cases_of_isFinite hx with ⟨s, hx⟩ | ⟨s, m, q, hm, hx, -⟩ <;> rw [hx] <;>
    exact rounds_zero_packed _

/-! ## Counts -/

/-- A short natural number is a double. -/
theorem value_ofCount {n : Nat} (h : n < 2 ^ 53) :
    (ofCount n).isFinite = true ∧ value (ofCount n) = n := by
  rcases Nat.eq_zero_or_pos n with rfl | hpos
  · exact ⟨rfl, rfl⟩
  · obtain ⟨m, q, hm, hunpacked, hvalue, -⟩ := unpacked_ofNat hpos h
    refine ⟨?_, (value_eq hunpacked).trans hvalue⟩
    rw [isFinite_eq, ofCount, hunpacked]
    rfl

/-- The upper bits of a word are a double, if there are no more than a mantissa has. -/
theorem value_upperBits (bits : UInt64) {k : UInt64} (hlow : 11 ≤ k.toNat) (hhigh : k.toNat < 64) :
    (bits >>> k).toNat < 2 ^ (64 - k.toNat) ∧ (bits >>> k).toFloat.isFinite = true ∧
      value (bits >>> k).toFloat = (bits >>> k).toNat := by
  have hbits : (bits >>> k).toNat < 2 ^ (64 - k.toNat) := by
    rw [UInt64.toNat_shiftRight, Nat.mod_eq_of_lt hhigh, Nat.shiftRight_eq_div_pow]
    refine Nat.div_lt_of_lt_mul ?_
    rw [← pow_add, Nat.add_sub_of_le hhigh.le]
    exact bits.toNat_lt
  have hcount := value_ofCount
    (hbits.trans_le (Nat.pow_le_pow_right two_pos (show 64 - k.toNat ≤ 53 by omega)))
  rw [ofCount, Nat.toUInt64, UInt64.ofNat_toNat] at hcount
  exact ⟨hbits, hcount⟩

/-! ## Roots -/

theorem sqrt_eq_packed (x : Float) :
    x.sqrt = packed (UnpackedFloat.sqrt Format.binary64 (unpacked x)) :=
  rfl

/-- The remainder of a root says how the exact root lies, up to the place inside the two halves
between two natural numbers. -/
theorem represents_root (n : Nat) :
    ∃ r : ℚ, Represents (ExtendedMantissa.ofMantissaAndAccuracy n.sqrt
        (if n - n.sqrt * n.sqrt = 0 then .exact
          else .inexact (if n - n.sqrt * n.sqrt ≤ n.sqrt then .lt else .gt))) r ∧
      (n.sqrt : ℚ) ≤ r ∧ r ≤ n.sqrt + 3 / 4 ∧ (n - n.sqrt * n.sqrt = 0 → r = n.sqrt) := by
  split
  · exact ⟨n.sqrt, rfl, le_rfl, by linarith, fun _ => rfl⟩
  · next hrest =>
    split
    · exact ⟨n.sqrt + 1 / 4, ⟨by linarith, by linarith⟩, by linarith, by linarith,
        fun h => absurd h hrest⟩
    · exact ⟨n.sqrt + 3 / 4, ⟨by linarith, by linarith⟩, by linarith, le_rfl,
        fun h => absurd h hrest⟩

/-- A natural number with a rational root has a natural one. -/
theorem sqrt_of_sq {n : Nat} {r : ℚ} (hr : 0 ≤ r) (h : r ^ 2 = n) :
    n - n.sqrt * n.sqrt = 0 ∧ (n.sqrt : ℚ) = r := by
  obtain ⟨k, rfl⟩ : IsSquare n := Rat.isSquare_natCast_iff.1 ⟨r, by rw [← h, sq]⟩
  rw [Nat.sqrt_eq]
  refine ⟨Nat.sub_self _, (pow_left_inj₀ k.cast_nonneg hr two_ne_zero).1 ?_⟩
  rw [h, sq]
  push_cast
  rfl

/-- The square of a number between a long whole root and the next number. -/
theorem sq_root_error {n : Nat} (h : 2 ^ 104 ≤ n) {r : ℚ} (hlow : (n.sqrt : ℚ) ≤ r)
    (hhigh : r ≤ n.sqrt + 3 / 4) : |r ^ 2 - n| ≤ n / 2 ^ (50 : Nat) := by
  have hroot : 2 ^ 52 ≤ n.sqrt := Nat.le_sqrt'.2 (by omega)
  have hsq : (n.sqrt : ℚ) ^ 2 ≤ n := by exact_mod_cast Nat.sqrt_le' n
  have hnext : (n : ℚ) < (n.sqrt + 1) ^ 2 := by exact_mod_cast Nat.lt_succ_sqrt' n
  have hlong : (2 : ℚ) ^ (52 : Nat) ≤ n.sqrt := by exact_mod_cast hroot
  generalize (n.sqrt : ℚ) = root at *
  have hpart : root * 2 ^ (52 : Nat) ≤ n := by nlinarith
  rw [abs_le]
  constructor
  · nlinarith
  · nlinarith

/-- The mantissa under the root is made long enough for a root with all the bits that rounding
needs. A rational root is found exactly. -/
theorem fine_root {m : Nat} {e : Int} (hm : 0 < m) (he : -1074 ≤ e) :
    ∃ r : ℚ, Fine r (sqrtCore Format.binary64 m e).1 (sqrtCore Format.binary64 m e).2.1
        (sqrtCore Format.binary64 m e).2.2 ∧
      0 < r ∧ |r ^ 2 - (m : ℚ) * 2 ^ e| ≤ (m : ℚ) * 2 ^ e / 2 ^ (50 : Nat) ∧
      ∀ s : ℚ, 0 ≤ s → s ^ 2 = (m : ℚ) * 2 ^ e → r = s := by
  unfold sqrtCore
  dsimp only
  set t := min (e.ediv 2) (Format.binary64.targetExponent ((totalExponent m e + 1).ediv 2)) with ht
  have hediv (x : Int) : x.ediv 2 = x / 2 := rfl
  rw [targetExponent_eq, totalExponent, hediv, hediv] at ht
  set n := m <<< (e - 2 * t).toNat with hn
  -- half of these bits are those of the root
  have hlong : 2 ^ 104 ≤ n := by
    have hpos : 0 < n := by
      rw [hn, Nat.shiftLeft_eq]
      positivity
    rw [← Nat.le_log2 hpos.ne', hn, log2_shiftLeft hm]
    omega
  have hvalue : (n : ℚ) * (2 ^ t) ^ 2 = m * 2 ^ e := by
    rw [hn, Nat.shiftLeft_eq, ← zpow_natCast, ← zpow_mul]
    push_cast
    rw [mul_assoc, ← zpow_natCast, ← zpow_add₀ two_ne_zero]
    congr 2
    omega
  have hroot : 2 ^ 52 ≤ n.sqrt := Nat.le_sqrt'.2 (by omega)
  have hscale : (0 : ℚ) < 2 ^ t := by positivity
  obtain ⟨r, hr, hlow, hhigh, hexact⟩ := represents_root n
  have hpos : (0 : ℚ) < n.sqrt := by exact_mod_cast (show 0 < n.sqrt by omega)
  refine ⟨r * 2 ^ t, ⟨?_, le_targetExponent (.inl ?_), .inl ?_⟩, ?_, ?_, fun s hs hsq => ?_⟩
  · rwa [mul_div_cancel_right₀ _ hscale.ne']
  · exact (Nat.le_log2 (by omega)).2 hroot
  · omega
  · exact mul_pos (hpos.trans_le hlow) hscale
  · rw [mul_pow, ← hvalue, ← sub_mul, abs_mul, abs_of_pos (pow_pos hscale 2), mul_div_right_comm]
    exact mul_le_mul_of_nonneg_right (sq_root_error hlong hlow hhigh) (pow_pos hscale 2).le
  · have hsq' : (s / 2 ^ t) ^ 2 = n := by
      rw [div_pow, hsq, ← hvalue, mul_div_cancel_right₀ _ (pow_pos hscale 2).ne']
    obtain ⟨hrest, hroot⟩ := sqrt_of_sq (div_nonneg hs hscale.le) hsq'
    rw [hexact hrest, hroot, div_mul_cancel₀ _ hscale.ne']

/-- The exact root of a double is of an ordinary size. -/
theorem root_size {r : ℚ} (hr : 0 < r) (hlow : 2 ^ (-1074 : Int) ≤ v) (hhigh : v < overflowBound)
    (hsq : |r ^ 2 - v| ≤ v / 2 ^ (50 : Nat)) :
    r < overflowBound ∧ 2 ^ (-1075 : Int) ≤ r / 2 ^ (53 : Nat) := by
  obtain ⟨hsq', hsq''⟩ := abs_le.1 hsq
  constructor
  · by_contra hlarge
    rw [not_lt] at hlarge
    have htwo : (2 : ℚ) ≤ overflowBound :=
      (zpow_le_zpow_right₀ one_le_two (show (1 : Int) ≤ 1023 by decide)).trans
        two_pow_lt_overflowBound.le
    nlinarith
  · have hdouble : (2 : ℚ) ^ (-1074 : Int) = 2 ^ (-1075 : Int) * 2 := by
      rw [← zpow_add_one₀ two_ne_zero]
      rfl
    have hsmallest : (2 : ℚ) ^ (-1075 : Int) * (2 ^ (53 : Nat)) ^ 2 ≤ 1 := by
      rw [← pow_mul, ← zpow_natCast, ← zpow_add₀ two_ne_zero]
      exact zpow_le_one_of_nonpos₀ one_le_two (by decide)
    have hpositive : (0 : ℚ) < 2 ^ (-1075 : Int) := by positivity
    rw [hdouble] at hlow
    rw [le_div_iff₀ (by positivity)]
    generalize (2 : ℚ) ^ (-1075 : Int) = tiny at *
    by_contra hsmall
    rw [not_le] at hsmall
    -- the square of such a root would be less than the least double
    have hsquare : r ^ 2 < (tiny * 2 ^ (53 : Nat)) ^ 2 := pow_lt_pow_left₀ hsmall hr.le two_ne_zero
    nlinarith

/-- Roots are rounded from a number that is close to the exact root, and is that root if it is
rational. -/
theorem exists_root (hx : x.isFinite = true) (hpos : 0 < value x) :
    ∃ r, Rounds r x.sqrt ∧ 0 < r ∧ r < overflowBound ∧ 2 ^ (-1075 : Int) ≤ r / 2 ^ (53 : Nat) ∧
      |r ^ 2 - value x| ≤ value x / 2 ^ (50 : Nat) ∧ ∀ s : ℚ, 0 ≤ s → s ^ 2 = value x → r = s := by
  have hhigh := abs_value_lt hx
  have hlow := least_le_value hx hpos
  rw [abs_of_pos hpos] at hhigh
  obtain ⟨m, q, hm, hx, hc, hvalue⟩ := unpacked_of_value_pos hx hpos
  obtain ⟨r, hfine, hr, herror, hexact⟩ := fine_root hm hc.least
  rw [← hvalue] at herror hexact
  obtain ⟨hbound, htiny⟩ := root_size hr hlow hhigh herror
  refine ⟨r, ?_, hr, hbound, htiny, herror, hexact⟩
  have h := rounds_roundWithAccuracy hfine hr.le hbound .positive
  rw [sqrt_eq_packed, hx]
  exact h

/-- **Roots.** The square of a root is close to the number. -/
theorem sqrt_spec (hx : x.isFinite = true) (hpos : 0 < value x) :
    x.sqrt.isFinite = true ∧ 0 < value x.sqrt ∧
      |value x.sqrt ^ 2 - value x| ≤ value x / 2 ^ (40 : Nat) := by
  obtain ⟨r, hrounds, hr, hbound, htiny, herror, -⟩ := exists_root hx hpos
  have hpart := hrounds.error_le_part (by rwa [abs_of_pos hr])
  rw [abs_of_pos hr] at hpart
  obtain ⟨hnear, hnear'⟩ := abs_le.1 (hpart.trans (add_le_add_right htiny _))
  obtain ⟨hsq, hsq'⟩ := abs_le.1 herror
  generalize value x = v at *
  generalize value x.sqrt = w at *
  norm_num at hnear hnear' hsq hsq'
  refine ⟨hrounds.isFinite, by linarith, ?_⟩
  rw [abs_le]
  constructor
  · nlinarith
  · nlinarith

/-- The root of the square of a double is that double. -/
theorem value_sqrt_of_sq (hx : x.isFinite = true) (hy : y.isFinite = true) (hpos : 0 < value y)
    (h : value y ^ 2 = value x) : value x.sqrt = value y := by
  obtain ⟨r, hrounds, -, -, -, -, hexact⟩ := exists_root hx (h ▸ pow_pos hpos 2)
  rw [hexact _ hpos.le h] at hrounds
  exact hrounds.eq hy

end CurveArt.Binary64
