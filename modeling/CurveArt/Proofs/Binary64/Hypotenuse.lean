import CurveArt.Binary64.Hypotenuse
import CurveArt.Proofs.Binary64.Operations
import CurveArt.Proofs.Binary64.Unsigned

/-!
# Lengths of vectors

The length of a finite vector is computed in about twenty roundings. None of them may overflow or
give something that is not a number, and the corrected root must not end below zero. Their exact
errors do not matter for that: it is enough that each rounding errs by less than a thousandth of the
longer leg, or of its square.

Main results:

* `correctedLength_spec`: legs of ordinary sizes have a positive length of at most three times the
  longer one.
* `hypot_unsigned`: a finite vector has a length, which is infinite where it is beyond all doubles.
* `hypot_isFinite`: it is finite for legs up to a quarter of the greatest double.
-/

namespace CurveArt.Binary64

variable {a b h s x y : Float} {c d u v : ℚ}

/-! ## Roundings of ordinary sizes -/

/-- A size far from that of the least doubles, three times of which is not beyond the greatest. -/
structure Ordinary (u : ℚ) : Prop where
  least : 2 ^ (-1000 : Int) ≤ u
  greatest : u ≤ 2 ^ (1022 : Int)

theorem Ordinary.pos (hu : Ordinary u) : 0 < u :=
  lt_of_lt_of_le (by positivity) hu.least

/-- A double within a thousandth of the size from the number that it stands for. -/
structure Near (u v : ℚ) (x : Float) : Prop where
  isFinite : x.isFinite = true
  lower : v - u / 1000 ≤ value x
  upper : value x ≤ v + u / 1000

theorem Ordinary.lt_overflowBound (hu : Ordinary u) (hv : |v| ≤ 3 * u) : |v| < overflowBound := by
  have hscale : (0 : ℚ) < 2 ^ (971 : Int) := by positivity
  have htop : (2 : ℚ) ^ (1022 : Int) = 2 ^ (51 : Nat) * 2 ^ (971 : Int) := by
    rw [← zpow_natCast, ← zpow_add₀ two_ne_zero]
    rfl
  calc |v| ≤ 3 * (2 ^ (51 : Nat) * 2 ^ (971 : Int)) := by
        rw [← htop]
        exact hv.trans (mul_le_mul_of_nonneg_left hu.greatest (by norm_num))
    _ = (3 * 2 ^ (51 : Nat)) * 2 ^ (971 : Int) := (mul_assoc _ _ _).symm
    _ < overflowBound := by
        rw [overflowBound_eq]
        exact mul_lt_mul_of_pos_right (by norm_num) hscale

theorem Ordinary.near (hu : Ordinary u) (hv : |v| ≤ 3 * u) (h : Rounds v x) : Near u v x := by
  have herror := h.error_le_part (hu.lt_overflowBound hv)
  -- what underflow adds to the error is nothing next to the size
  have htiny : (2 : ℚ) ^ (-1075 : Int) ≤ u / 2 ^ (53 : Nat) := by
    have hstep : (2 : ℚ) ^ (-1075 : Int) * 2 ^ (53 : Nat) ≤ 2 ^ (-1000 : Int) := by
      rw [← zpow_natCast, ← zpow_add₀ two_ne_zero]
      exact zpow_le_zpow_right₀ one_le_two (by decide)
    rw [le_div_iff₀ (by positivity)]
    exact hstep.trans hu.least
  have hpos := hu.pos
  have hsum : |v - value x| ≤ u / 1000 := by
    refine herror.trans ?_
    have hpart : |v| / 2 ^ (53 : Nat) ≤ 3 * u / 2 ^ (53 : Nat) :=
      div_le_div_of_nonneg_right hv (by positivity)
    generalize (2 : ℚ) ^ (-1075 : Int) = tiny at *
    norm_num at htiny hpart ⊢
    linarith
  obtain ⟨hlow, hhigh⟩ := abs_le.1 hsum
  exact ⟨h.isFinite, by linarith, by linarith⟩

section Operations

variable (hu : Ordinary u) (hx : x.isFinite = true) (hy : y.isFinite = true)
include hu hx hy

theorem near_add (hv : |value x + value y| ≤ 3 * u) : Near u (value x + value y) (x + y) :=
  hu.near hv (rounds_add hx hy (hu.lt_overflowBound hv))

theorem near_sub (hv : |value x - value y| ≤ 3 * u) : Near u (value x - value y) (x - y) :=
  hu.near hv (rounds_sub hx hy (hu.lt_overflowBound hv))

theorem near_mul (hv : |value x * value y| ≤ 3 * u) : Near u (value x * value y) (x * y) :=
  hu.near hv (rounds_mul hx hy (hu.lt_overflowBound hv))

theorem near_div (hne : value y ≠ 0) (hv : |value x / value y| ≤ 3 * u) :
    Near u (value x / value y) (x / y) :=
  hu.near hv (rounds_div hx hy hne (hu.lt_overflowBound hv))

end Operations

/-- A double of at most so many times the size. -/
structure AtMost (c u : ℚ) (x : Float) : Prop where
  isFinite : x.isFinite = true
  le : |value x| ≤ c * u

/-- The bounds of two terms add up, with a thousandth for the rounding. -/
theorem AtMost.add (hx : AtMost c u x) (hy : AtMost d u y) (hu : Ordinary u) (h : c + d ≤ 3) :
    AtMost (c + d + 0.001) u (x + y) := by
  have hpos := hu.pos
  have hsum : |value x + value y| ≤ (c + d) * u := by
    rw [add_mul]
    exact (abs_add_le _ _).trans (add_le_add hx.le hy.le)
  obtain ⟨hsum', hsum''⟩ := abs_le.1 hsum
  obtain ⟨hr, hlow, hhigh⟩ := near_add hu hx.isFinite hy.isFinite
    (hsum.trans (mul_le_mul_of_nonneg_right h hpos.le))
  exact ⟨hr, abs_le.2 ⟨by linarith, by linarith⟩⟩

/-- The bounds of two factors are multiplied, with a thousandth of the square for the rounding. -/
theorem AtMost.mul (hx : AtMost c u x) (hy : AtMost d u y) (hu : Ordinary (u ^ 2))
    (h : c * d ≤ 3) : AtMost (c * d + 0.001) (u ^ 2) (x * y) := by
  have hpos := hu.pos
  have hproduct : |value x * value y| ≤ c * d * u ^ 2 := by
    rw [abs_mul, pow_two, mul_mul_mul_comm]
    exact mul_le_mul hx.le hy.le (abs_nonneg _) ((abs_nonneg _).trans hx.le)
  obtain ⟨hproduct', hproduct''⟩ := abs_le.1 hproduct
  obtain ⟨hr, hlow, hhigh⟩ := near_mul hu hx.isFinite hy.isFinite
    (hproduct.trans (mul_le_mul_of_nonneg_right h hpos.le))
  exact ⟨hr, abs_le.2 ⟨by linarith, by linarith⟩⟩

theorem value_two : value 2.0 = 2 := by
  rw [value_power unpacked_two]
  rfl

theorem value_four : value 4.0 = 4 := by
  rw [value_power (show unpacked 4.0 = .finite .positive (2 ^ 52) (-50) (by decide) from rfl)]
  rfl

/-! ## Legs of ordinary sizes -/

/-- Legs `a ≥ b` whose squares are safe. -/
structure Legs (a b : Float) : Prop where
  long_isFinite : a.isFinite = true
  short_isFinite : b.isFinite = true
  least : 2 ^ (-474 : Int) ≤ value b
  le : value b ≤ value a
  greatest : value a ≤ 2 ^ (511 : Int)

theorem ordinary_sq (hlow : 2 ^ (-474 : Int) ≤ v) (hhigh : v ≤ 2 ^ (511 : Int)) :
    Ordinary (v ^ 2) := by
  have hpos : (0 : ℚ) < 2 ^ (-474 : Int) := by positivity
  constructor
  · calc (2 : ℚ) ^ (-1000 : Int) ≤ (2 ^ (-474 : Int)) ^ 2 := by
          rw [← zpow_natCast, ← zpow_mul]
          exact zpow_le_zpow_right₀ one_le_two (by decide)
      _ ≤ v ^ 2 := pow_le_pow_left₀ hpos.le hlow 2
  · calc v ^ 2 ≤ (2 ^ (511 : Int)) ^ 2 := pow_le_pow_left₀ (hpos.le.trans hlow) hhigh 2
      _ = 2 ^ (1022 : Int) := by
          rw [← zpow_natCast, ← zpow_mul]
          rfl

namespace Legs

theorem short_pos (hl : Legs a b) : 0 < value b :=
  lt_of_lt_of_le (by positivity) hl.least

theorem long_pos (hl : Legs a b) : 0 < value a :=
  hl.short_pos.trans_le hl.le

theorem ordinary (hl : Legs a b) : Ordinary (value a) where
  least := (zpow_le_zpow_right₀ one_le_two (by decide)).trans (hl.least.trans hl.le)
  greatest := hl.greatest.trans (zpow_le_zpow_right₀ one_le_two (by decide))

theorem ordinary_long (hl : Legs a b) : Ordinary (value a ^ 2) :=
  ordinary_sq (hl.least.trans hl.le) hl.greatest

/-- The rounded root is the length, up to a hundredth of the longer leg. -/
theorem root (hl : Legs a b) :
    (a * a + b * b).sqrt.isFinite = true ∧ 0 < value (a * a + b * b).sqrt ∧
      0.996 * value a ^ 2 + value b ^ 2 ≤ value (a * a + b * b).sqrt ^ 2 ∧
        value (a * a + b * b).sqrt ^ 2 ≤ 1.004 * value a ^ 2 + value b ^ 2 := by
  have hshort := hl.short_pos
  have hlong := hl.long_pos
  have hle := hl.le
  have hsq : value b ^ 2 ≤ value a ^ 2 := pow_le_pow_left₀ hshort.le hle 2
  have hsq' : 0 < value b ^ 2 := pow_pos hshort 2
  have haa := near_mul hl.ordinary_long hl.long_isFinite hl.long_isFinite
    (abs_le.2 ⟨by nlinarith, by nlinarith⟩)
  have hbb := near_mul hl.ordinary_long hl.short_isFinite hl.short_isFinite
    (abs_le.2 ⟨by nlinarith, by nlinarith⟩)
  have haa' := haa.lower
  have haa'' := haa.upper
  have hbb' := hbb.lower
  have hbb'' := hbb.upper
  rw [← pow_two] at haa' haa'' hbb' hbb''
  have hsum := near_add hl.ordinary_long haa.isFinite hbb.isFinite
    (abs_le.2 ⟨by linarith, by linarith⟩)
  have hsum' := hsum.lower
  have hsum'' := hsum.upper
  obtain ⟨hfinite, hpos, herror⟩ := sqrt_spec hsum.isFinite (by linarith)
  refine ⟨hfinite, hpos, ?_⟩
  obtain ⟨hlow, hhigh⟩ := abs_le.1 herror
  norm_num at hlow hhigh
  constructor <;> linarith

/-! ### The remainder of the root -/

theorem doubled (hl : Legs a b) (hx : x.isFinite = true) (hv : |2 * value x| ≤ 3 * value a) :
    Near (value a) (2 * value x) (2.0 * x) := by
  rw [← value_two] at hv ⊢
  exact near_mul hl.ordinary rfl hx hv

/-- The remainder for legs of similar lengths. Here the first term is small only from above. -/
theorem similar (hl : Legs a b) (hh : h.isFinite = true) (hlow : 0.99 * value a ≤ value h)
    (hhigh : value h ≤ 1.42 * value a) (hcond : h ≤ 2.0 * b) :
    let δ := h - b
    let r := a * (2.0 * δ - a) + (δ - 2.0 * (a - b)) * δ
    r.isFinite = true ∧ -(2 * value a ^ 2) ≤ value r ∧ value r ≤ 1.82 * value a ^ 2 := by
  intro δ r
  have hshort := hl.short_pos
  have hlong := hl.long_pos
  have hle := hl.le
  have ha := hl.long_isFinite
  have hb := hl.short_isFinite
  have hu := hl.ordinary
  have hu' := hl.ordinary_long
  obtain ⟨hp, -, hp'⟩ := hl.doubled hb (abs_le.2 ⟨by linarith, by linarith⟩)
  have hcond' := (le_iff_value hh hp).1 hcond
  obtain ⟨hδ, hδlow, hδhigh⟩ := near_sub hu hh hb (abs_le.2 ⟨by linarith, by linarith⟩)
  have hfirst : (a * (2.0 * δ - a)).isFinite = true ∧
      -(1.031 * value a ^ 2) ≤ value (a * (2.0 * δ - a)) ∧
        value (a * (2.0 * δ - a)) ≤ 0.86 * value a ^ 2 := by
    obtain ⟨he, helow, hehigh⟩ := hl.doubled hδ (abs_le.2 ⟨by linarith, by linarith⟩)
    obtain ⟨he', helow', hehigh'⟩ := near_sub hu he ha (abs_le.2 ⟨by linarith, by linarith⟩)
    have hbelow : value a * -(1.03 * value a) ≤ value a * value (2.0 * δ - a) :=
      mul_le_mul_of_nonneg_left (by linarith) hlong.le
    have habove : value a * value (2.0 * δ - a) ≤ value a * (0.859 * value a) :=
      mul_le_mul_of_nonneg_left (by linarith) hlong.le
    obtain ⟨hs, hslow, hshigh⟩ := near_mul hu' ha he' (abs_le.2 ⟨by linarith, by linarith⟩)
    exact ⟨hs, by linarith, by linarith⟩
  have hsecond : AtMost (1.02 * 0.93 + 0.001) (value a ^ 2) ((δ - 2.0 * (a - b)) * δ) := by
    obtain ⟨hf, hflow, hfhigh⟩ := near_sub hu ha hb (abs_le.2 ⟨by linarith, by linarith⟩)
    obtain ⟨hf', hflow', hfhigh'⟩ := hl.doubled hf (abs_le.2 ⟨by linarith, by linarith⟩)
    obtain ⟨hg, hglow, hghigh⟩ := near_sub hu hδ hf' (abs_le.2 ⟨by linarith, by linarith⟩)
    have hδ' : AtMost 0.93 (value a) δ := ⟨hδ, abs_le.2 ⟨by linarith, by linarith⟩⟩
    have hg' : AtMost 1.02 (value a) (δ - 2.0 * (a - b)) :=
      ⟨hg, abs_le.2 ⟨by linarith, by linarith⟩⟩
    exact hg'.mul hδ' hu' (by norm_num)
  obtain ⟨hs, hslow, hshigh⟩ := hfirst
  obtain ⟨htlow, hthigh⟩ := abs_le.1 hsecond.le
  obtain ⟨hr, hrlow, hrhigh⟩ := near_add hu' hs hsecond.isFinite
    (abs_le.2 ⟨by linarith, by linarith⟩)
  exact ⟨hr, by linarith, by linarith⟩

/-- The remainder for legs of different lengths. Both terms are small, as the root is close to the
longer leg. -/
theorem different (hl : Legs a b) (hh : h.isFinite = true) (hlow : 0.99 * value a ≤ value h)
    (hhigh : value h ≤ 1.42 * value a)
    (hroot : value h ^ 2 ≤ 1.004 * value a ^ 2 + value b ^ 2) (hcond : ¬h ≤ 2.0 * b) :
    let δ := h - a
    let r := 2.0 * δ * (a - 2.0 * b) + ((4.0 * δ - b) * b + δ * δ)
    r.isFinite = true ∧ -(2 * value a ^ 2) ≤ value r ∧ value r ≤ 1.82 * value a ^ 2 := by
  intro δ r
  have hshort := hl.short_pos
  have hlong := hl.long_pos
  have hle := hl.le
  have ha := hl.long_isFinite
  have hb := hl.short_isFinite
  have hu := hl.ordinary
  have hu' := hl.ordinary_long
  obtain ⟨hp, hplow, hphigh⟩ := hl.doubled hb (abs_le.2 ⟨by linarith, by linarith⟩)
  have hcond' := not_le.1 (mt (le_iff_value hh hp).2 hcond)
  -- a root longer than twice the second leg is close to the first one
  have hb' : value b ≤ 0.711 * value a := by linarith
  have hh' : value h ≤ 1.24 * value a := by nlinarith
  obtain ⟨hδ, hδlow, hδhigh⟩ := near_sub hu hh ha (abs_le.2 ⟨by linarith, by linarith⟩)
  have hδ' : AtMost 0.25 (value a) δ := ⟨hδ, abs_le.2 ⟨by linarith, by linarith⟩⟩
  have hfirst : AtMost (0.51 * 1.01 + 0.001) (value a ^ 2) (2.0 * δ * (a - 2.0 * b)) := by
    obtain ⟨he, helow, hehigh⟩ := hl.doubled hδ (abs_le.2 ⟨by linarith, by linarith⟩)
    obtain ⟨hf, hflow, hfhigh⟩ := near_sub hu ha hp (abs_le.2 ⟨by linarith, by linarith⟩)
    have he' : AtMost 0.51 (value a) (2.0 * δ) := ⟨he, abs_le.2 ⟨by linarith, by linarith⟩⟩
    have hf' : AtMost 1.01 (value a) (a - 2.0 * b) := ⟨hf, abs_le.2 ⟨by linarith, by linarith⟩⟩
    exact he'.mul hf' hu' (by norm_num)
  have hsecond : AtMost (1.01 * 0.711 + 0.001) (value a ^ 2) ((4.0 * δ - b) * b) := by
    have h4 : (4.0 : Float).isFinite = true := rfl
    obtain ⟨hg, hglow, hghigh⟩ := near_mul hu h4 hδ
      (by rw [value_four]; exact abs_le.2 ⟨by linarith, by linarith⟩)
    rw [value_four] at hglow hghigh
    obtain ⟨hk, hklow, hkhigh⟩ := near_sub hu hg hb (abs_le.2 ⟨by linarith, by linarith⟩)
    have hk' : AtMost 1.01 (value a) (4.0 * δ - b) := ⟨hk, abs_le.2 ⟨by linarith, by linarith⟩⟩
    have hb'' : AtMost 0.711 (value a) b := ⟨hb, abs_le.2 ⟨by linarith, by linarith⟩⟩
    exact hk'.mul hb'' hu' (by norm_num)
  have hr := hfirst.add (hsecond.add (hδ'.mul hδ' hu' (by norm_num)) hu' (by norm_num)) hu'
    (by norm_num)
  obtain ⟨hrlow, hrhigh⟩ := abs_le.1 hr.le
  have hsq := hu'.pos
  exact ⟨hr.isFinite, by linarith, by linarith⟩

/-- Taking a small part of the remainder off the root. -/
theorem corrected (hl : Legs a b) (hh : h.isFinite = true) (hlow : 0.99 * value a ≤ value h)
    (hhigh : value h ≤ 1.42 * value a) (hs : s.isFinite = true)
    (hslow : -(2 * value a ^ 2) ≤ value s) (hshigh : value s ≤ 1.82 * value a ^ 2) :
    (h - s / (2.0 * h)).isFinite = true ∧ 0 < value (h - s / (2.0 * h)) ∧
      value (h - s / (2.0 * h)) ≤ 3 * value a := by
  have hlong := hl.long_pos
  have hu := hl.ordinary
  obtain ⟨hk, hklow, hkhigh⟩ := hl.doubled hh (abs_le.2 ⟨by linarith, by linarith⟩)
  have hkpos : 0 < value (2.0 * h) := by linarith
  -- divided by almost twice the longer leg, the remainder is less than the root
  have hquotient : -(1.02 * value a) ≤ value s / value (2.0 * h) ∧
      value s / value (2.0 * h) ≤ 0.95 * value a := by
    rw [le_div_iff₀ hkpos, div_le_iff₀ hkpos]
    constructor <;> nlinarith
  obtain ⟨hquotient', hquotient''⟩ := hquotient
  obtain ⟨hc, hclow, hchigh⟩ := near_div hu hs hk hkpos.ne'
    (abs_le.2 ⟨by linarith, by linarith⟩)
  obtain ⟨hr, hrlow, hrhigh⟩ := near_sub hu hh hc (abs_le.2 ⟨by linarith, by linarith⟩)
  exact ⟨hr, by linarith, by linarith⟩

end Legs

theorem correctedLength_spec (hl : Legs a b) :
    (correctedLength a b).isFinite = true ∧ 0 < value (correctedLength a b) ∧
      value (correctedLength a b) ≤ 3 * value a := by
  obtain ⟨hh, hpos, hroot', hroot⟩ := hl.root
  have hshort := hl.short_pos
  have hlong := hl.long_pos
  have hle := hl.le
  have hlow : 0.99 * value a ≤ value (a * a + b * b).sqrt := by
    by_contra hsmall
    rw [not_le] at hsmall
    nlinarith
  have hhigh : value (a * a + b * b).sqrt ≤ 1.42 * value a := by
    by_contra hlarge
    rw [not_le] at hlarge
    nlinarith
  unfold correctedLength
  dsimp only
  split
  · next hcond =>
    obtain ⟨hr, hrlow, hrhigh⟩ := hl.similar hh hlow hhigh hcond
    exact hl.corrected hh hlow hhigh hr hrlow hrhigh
  · next hcond =>
    obtain ⟨hr, hrlow, hrhigh⟩ := hl.different hh hlow hhigh hroot hcond
    exact hl.corrected hh hlow hhigh hr hrlow hrhigh

/-! ## Doubles without a sign -/

theorem unsigned_of_pos (hx : x.isFinite = true) (hpos : 0 < value x) : Unsigned x := by
  obtain ⟨m, q, hm, hx, -⟩ := unpacked_of_value_pos hx hpos
  rw [Unsigned, hx]
  trivial

theorem unsigned_abs (hx : x.isFinite = true) : Unsigned x.abs := by
  rw [Unsigned, unpacked_abs]
  rcases cases_of_isFinite hx with ⟨s, hx⟩ | ⟨s, m, q, hm, hx, -⟩ <;> rw [hx] <;> trivial

/-- A double without a sign is infinite or a number that is not negative. -/
theorem Unsigned.isFinite_or_infinity (h : Unsigned x) :
    x.isFinite = true ∧ 0 ≤ value x ∨ unpacked x = .infinity .positive := by
  rw [isFinite_eq]
  rcases h.cases with hx | hx | ⟨m, q, hm, hx⟩
  · exact .inl ⟨by rw [hx]; rfl, (value_eq hx).ge⟩
  · exact .inr hx
  · refine .inl ⟨by rw [hx]; rfl, ?_⟩
    rw [value_eq hx]
    show (0 : ℚ) ≤ m * 2 ^ q
    positivity

theorem Unsigned.isNaN_eq_false (h : Unsigned x) : x.isNaN = false := by
  rw [isNaN_eq]
  rcases h.cases with hx | hx | ⟨m, q, hm, hx⟩ <;> rw [hx] <;> rfl

/-! ## All legs -/

theorem value_negligible : value negligible = 2 ^ (-54 : Int) :=
  value_power (show unpacked negligible = .finite .positive (2 ^ 52) (-106) (by decide) from rfl)

theorem value_longLeg : value longLeg = 2 ^ (511 : Int) :=
  value_power (show unpacked longLeg = .finite .positive (2 ^ 52) 459 (by decide) from rfl)

theorem value_shortLeg : value shortLeg = 2 ^ (-459 : Int) :=
  value_power (show unpacked shortLeg = .finite .positive (2 ^ 52) (-511) (by decide) from rfl)

theorem value_scale : value scale = 2 ^ (-600 : Int) :=
  value_power (show unpacked scale = .finite .positive (2 ^ 52) (-652) (by decide) from rfl)

theorem two_zpow_mul {j k l : Int} (h : j + k = l) : (2 : ℚ) ^ j * 2 ^ k = 2 ^ l := by
  rw [← h, zpow_add₀ two_ne_zero]

/-- Making a double smaller by a power of two. -/
theorem rounds_reduced {k : Int} (hx : x.isFinite = true) (hy : y.isFinite = true)
    (hvalue : value y = 2 ^ k) (hk : k ≤ 0) : Rounds (value x * 2 ^ k) (x * y) := by
  rw [← hvalue]
  refine rounds_mul hx hy ?_
  rw [hvalue, abs_mul, abs_of_pos (show (0 : ℚ) < 2 ^ k by positivity)]
  exact (mul_le_of_le_one_right (abs_nonneg _) (zpow_le_one_of_nonpos₀ one_le_two hk)).trans_lt
    (abs_value_lt hx)

/-- Making a double greater by a power of two. -/
theorem rounds_enlarged {j k : Int} (hx : x.isFinite = true) (hy : y.isFinite = true)
    (hvalue : value y = 2 ^ (-k)) (hsmall : |value x| ≤ 2 ^ j) (hj : j + k ≤ 1023) :
    Rounds (value x * 2 ^ k) (x / y) := by
  have hpos : (0 : ℚ) < 2 ^ k := by positivity
  have hquotient : value x / value y = value x * 2 ^ k := by
    rw [hvalue, zpow_neg, div_inv_eq_mul]
  have hne : value y ≠ 0 := by
    rw [hvalue]
    positivity
  rw [← hquotient]
  refine rounds_div hx hy hne ?_
  rw [hquotient, abs_mul, abs_of_pos hpos]
  calc |value x| * 2 ^ k ≤ 2 ^ j * 2 ^ k := mul_le_mul_of_nonneg_right hsmall hpos.le
    _ = 2 ^ (j + k) := two_zpow_mul rfl
    _ ≤ 2 ^ (1023 : Int) := zpow_le_zpow_right₀ one_le_two hj
    _ < overflowBound := two_pow_lt_overflowBound

/-- Scaled legs whose exact lengths are in the range. -/
theorem legs_of_rounds {k : Int} (ha : Rounds (value a * 2 ^ k) x) (hb : Rounds (value b * 2 ^ k) y)
    (hle : value y ≤ value x) (hlow : 2 ^ (-474 : Int) ≤ value b * 2 ^ k)
    (hhigh : value a * 2 ^ k ≤ 2 ^ (511 : Int)) : Legs x y :=
  ⟨ha.isFinite, hb.isFinite, hb.power_le (by decide) (by decide) hlow, hle,
    ha.le_power (by decide) (by decide) hhigh⟩

section Measured

variable (ha : a.isFinite = true) (hb : b.isFinite = true) (hle : value b ≤ value a)
include ha hb hle

/-- An operation that keeps the order of numbers keeps that of equal legs too. -/
theorem value_le_of_mono {f : Float → Float} (hpos : 0 < value b)
    (hmono : value b < value a → value (f b) ≤ value (f a)) : value (f b) ≤ value (f a) := by
  rcases hle.lt_or_eq with hlt | heq
  · exact hmono hlt
  · rw [eq_of_value hb ha heq hpos.ne']

/-- Long legs of comparable lengths are brought down. -/
theorem legs_down (hlong : 2 ^ (511 : Int) < value a) (hratio : ¬b ≤ a * negligible) :
    Legs (a * scale) (b * scale) := by
  have hnegligible := rounds_reduced ha rfl value_negligible (by decide)
  have hlong' := rounds_reduced ha rfl value_scale (by decide)
  have hshort' := rounds_reduced hb rfl value_scale (by decide)
  -- the other leg is longer than the negligible part
  have hb' : 2 ^ (457 : Int) ≤ value b := by
    refine le_trans (hnegligible.power_le (by decide) (by decide) ?_)
      (not_le.1 (mt (le_iff_value hb hnegligible.isFinite).2 hratio)).le
    calc (2 : ℚ) ^ (457 : Int) = 2 ^ (511 : Int) * 2 ^ (-54 : Int) := (two_zpow_mul (by decide)).symm
      _ ≤ value a * 2 ^ (-54 : Int) := mul_le_mul_of_nonneg_right hlong.le (by positivity)
  have hpos : 0 < value b := lt_of_lt_of_le (by positivity) hb'
  have hle' : value (b * scale) ≤ value (a * scale) :=
    value_le_of_mono (f := (· * scale)) ha hb hle hpos fun hlt =>
      hshort'.mono hlong' (mul_lt_mul_of_pos_right hlt (by positivity))
  refine legs_of_rounds hlong' hshort' hle' ?_ ?_
  · calc (2 : ℚ) ^ (-474 : Int) ≤ 2 ^ (457 + -600 : Int) :=
          zpow_le_zpow_right₀ one_le_two (by decide)
      _ = 2 ^ (457 : Int) * 2 ^ (-600 : Int) := (two_zpow_mul rfl).symm
      _ ≤ value b * 2 ^ (-600 : Int) := mul_le_mul_of_nonneg_right hb' (by positivity)
  · calc value a * 2 ^ (-600 : Int) ≤ 2 ^ (1024 : Int) * 2 ^ (-600 : Int) :=
          mul_le_mul_of_nonneg_right (value_le ha) (by positivity)
      _ = 2 ^ (424 : Int) := two_zpow_mul (by decide)
      _ ≤ 2 ^ (511 : Int) := zpow_le_zpow_right₀ one_le_two (by decide)

/-- Short legs of comparable lengths are brought up. -/
theorem legs_up (hpos : 0 ≤ value b) (hshort : value b < 2 ^ (-459 : Int))
    (hratio : ¬b / negligible ≤ a) : Legs (a / scale) (b / scale) := by
  have hnegligible := rounds_enlarged hb rfl value_negligible
    (by rw [abs_of_nonneg hpos]; exact hshort.le) (by decide)
  have hlt := not_le.1 (mt (le_iff_value hnegligible.isFinite ha).2 hratio)
  have ha' : value a ≤ 2 ^ (-405 : Int) := by
    refine hlt.le.trans (hnegligible.le_power (by decide) (by decide) ?_)
    calc value b * 2 ^ (54 : Int) ≤ 2 ^ (-459 : Int) * 2 ^ (54 : Int) :=
          mul_le_mul_of_nonneg_right hshort.le (by positivity)
      _ = 2 ^ (-405 : Int) := two_zpow_mul (by decide)
  -- a leg of no length would have passed the test
  have hpos' : 0 < value b := by
    refine lt_of_le_of_ne hpos fun hzero => ?_
    rw [← hzero, zero_mul] at hnegligible
    have hquotient : value (b / negligible) ≤ value 0.0 := hnegligible.le rfl le_rfl
    rw [value_zero] at hquotient
    linarith
  have hlong' := rounds_enlarged ha rfl value_scale
    (by rw [abs_of_nonneg (hpos.trans hle)]; exact ha') (by decide)
  have hshort' := rounds_enlarged hb rfl value_scale
    (by rw [abs_of_nonneg hpos]; exact hshort.le) (by decide)
  have hle' : value (b / scale) ≤ value (a / scale) :=
    value_le_of_mono (f := (· / scale)) ha hb hle hpos' fun hlt =>
      hshort'.mono hlong' (mul_lt_mul_of_pos_right hlt (by positivity))
  refine legs_of_rounds hlong' hshort' hle' ?_ ?_
  · calc (2 : ℚ) ^ (-474 : Int) = 2 ^ (-1074 : Int) * 2 ^ (600 : Int) := (two_zpow_mul (by decide)).symm
      _ ≤ value b * 2 ^ (600 : Int) :=
        mul_le_mul_of_nonneg_right (least_le_value hb hpos') (by positivity)
  · calc value a * 2 ^ (600 : Int) ≤ 2 ^ (-405 : Int) * 2 ^ (600 : Int) :=
          mul_le_mul_of_nonneg_right ha' (by positivity)
      _ = 2 ^ (195 : Int) := two_zpow_mul (by decide)
      _ ≤ 2 ^ (511 : Int) := zpow_le_zpow_right₀ one_le_two (by decide)

end Measured

/-- The ways in which a length is computed from the longer leg and the other one. -/
inductive Measured (a b : Float) : Float → Prop where
  | sum : Measured a b (a + b)
  | down (hl : Legs (a * scale) (b * scale)) :
      Measured a b (correctedLength (a * scale) (b * scale) / scale)
  | up (hl : Legs (a / scale) (b / scale)) :
      Measured a b (correctedLength (a / scale) (b / scale) * scale)
  | plain (hl : Legs a b) : Measured a b (correctedLength a b)

/-- The legs are the absolute values of the two coordinates, the greater one first. -/
structure Ordered (x y a b : Float) : Prop where
  legs : a = x.abs ∧ b = y.abs ∨ a = y.abs ∧ b = x.abs
  le : value b ≤ value a

theorem ordered (hx : x.isFinite = true) (hy : y.isFinite = true) :
    Ordered x y (if x.abs < y.abs then y.abs else x.abs)
      (if x.abs < y.abs then x.abs else y.abs) := by
  have hx' := (isFinite_abs x).trans hx
  have hy' := (isFinite_abs y).trans hy
  by_cases h : x.abs < y.abs
  · rw [if_pos h, if_pos h]
    exact ⟨.inr ⟨rfl, rfl⟩, ((lt_iff_value hx' hy').1 h).le⟩
  · rw [if_neg h, if_neg h]
    exact ⟨.inl ⟨rfl, rfl⟩, not_lt.1 (mt (lt_iff_value hx' hy').2 h)⟩

/-- What holds of the absolute values of both coordinates holds of both legs. -/
theorem Ordered.forall {p : Float → Prop} (ho : Ordered x y a b) (hx : p x.abs) (hy : p y.abs) :
    p a ∧ p b := by
  rcases ho.legs with ⟨rfl, rfl⟩ | ⟨rfl, rfl⟩
  · exact ⟨hx, hy⟩
  · exact ⟨hy, hx⟩

/-- The length of a finite vector is computed from its legs in one of the four ways. -/
theorem hypot_measured (hx : x.isFinite = true) (hy : y.isFinite = true) :
    ∃ a b, Ordered x y a b ∧ Measured a b (hypot x y) := by
  have hordered := ordered hx hy
  unfold hypot
  rw [isInf_of_isFinite hx, isInf_of_isFinite hy, isNaN_of_isFinite hx, isNaN_of_isFinite hy]
  simp only [Bool.or_self, Bool.false_eq_true, if_false]
  generalize (if x.abs < y.abs then y.abs else x.abs) = a at hordered ⊢
  generalize (if x.abs < y.abs then x.abs else y.abs) = b at hordered ⊢
  refine ⟨a, b, hordered, ?_⟩
  obtain ⟨ha, hb⟩ := hordered.forall (p := fun z => z.isFinite = true)
    ((isFinite_abs x).trans hx) ((isFinite_abs y).trans hy)
  obtain ⟨-, hpos⟩ := hordered.forall (p := fun z => 0 ≤ value z)
    (by rw [value_abs]; exact abs_nonneg _) (by rw [value_abs]; exact abs_nonneg _)
  have hle := hordered.le
  -- long legs, short legs and those in between, each with a test for legs of one length only
  split
  · next hlong =>
    rw [gt_iff_lt, lt_iff_value rfl ha, value_longLeg] at hlong
    split
    · exact .sum
    · next hratio => exact .down (legs_down ha hb hle hlong hratio)
  · next hlong =>
    rw [gt_iff_lt, lt_iff_value rfl ha, value_longLeg, not_lt] at hlong
    split
    · next hshort =>
      rw [lt_iff_value hb rfl, value_shortLeg] at hshort
      split
      · exact .sum
      · next hratio => exact .up (legs_up ha hb hle hpos hshort hratio)
    · next hshort =>
      rw [lt_iff_value hb rfl, value_shortLeg, not_lt] at hshort
      split
      · exact .sum
      · refine .plain ⟨ha, hb, ?_, hle, hlong⟩
        exact (zpow_le_zpow_right₀ one_le_two (by decide)).trans hshort

/-- **A finite vector has a length**, which is infinite where it is beyond all doubles. -/
theorem hypot_unsigned (hx : x.isFinite = true) (hy : y.isFinite = true) :
    Unsigned (hypot x y) := by
  obtain ⟨a, b, hordered, hmeasured⟩ := hypot_measured hx hy
  generalize hypot x y = d at hmeasured ⊢
  have hscale : unpacked scale = .finite .positive (2 ^ 52) (-652) (by decide) := rfl
  cases hmeasured with
  | sum =>
    obtain ⟨ha, hb⟩ := hordered.forall (p := Unsigned) (unsigned_abs hx) (unsigned_abs hy)
    exact unsigned_add ha hb
  | down hl =>
    obtain ⟨hr, hpos, -⟩ := correctedLength_spec hl
    obtain ⟨m, q, hm, hr, -⟩ := unpacked_of_value_pos hr hpos
    exact unsigned_div hr hscale
  | up hl =>
    obtain ⟨hr, hpos, -⟩ := correctedLength_spec hl
    obtain ⟨m, q, hm, hr, -⟩ := unpacked_of_value_pos hr hpos
    exact unsigned_mul hr hscale
  | plain hl =>
    obtain ⟨hr, hpos, -⟩ := correctedLength_spec hl
    exact unsigned_of_pos hr hpos

/-- **The length is a double** where the coordinates are not among the greatest doubles. -/
theorem hypot_isFinite (hx : x.isFinite = true) (hy : y.isFinite = true)
    (hx' : |value x| ≤ 2 ^ (1022 : Int)) (hy' : |value y| ≤ 2 ^ (1022 : Int)) :
    (hypot x y).isFinite = true := by
  obtain ⟨a, b, hordered, hmeasured⟩ := hypot_measured hx hy
  generalize hypot x y = d at hmeasured ⊢
  obtain ⟨ha, hb⟩ := hordered.forall (p := fun z => z.isFinite = true)
    ((isFinite_abs x).trans hx) ((isFinite_abs y).trans hy)
  obtain ⟨ha', hb'⟩ := hordered.forall (p := fun z => |value z| ≤ 2 ^ (1022 : Int))
    (by rw [value_abs, abs_abs]; exact hx') (by rw [value_abs, abs_abs]; exact hy')
  cases hmeasured with
  | sum =>
    refine (rounds_add ha hb ?_).isFinite
    calc |value a + value b| ≤ 2 ^ (1022 : Int) + 2 ^ (1022 : Int) :=
          (abs_add_le _ _).trans (add_le_add ha' hb')
      _ = 2 ^ (1023 : Int) := by
          rw [← mul_two, ← zpow_add_one₀ two_ne_zero]
          rfl
      _ < overflowBound := two_pow_lt_overflowBound
  | down hl =>
    obtain ⟨hr, hpos, hle⟩ := correctedLength_spec hl
    -- brought down and up again, a length is at most three times the longer leg
    have hlong : value (a * scale) ≤ 2 ^ (422 : Int) := by
      refine (rounds_reduced ha rfl value_scale (by decide)).le_power (by decide) (by decide) ?_
      calc value a * 2 ^ (-600 : Int) ≤ 2 ^ (1022 : Int) * 2 ^ (-600 : Int) :=
            mul_le_mul_of_nonneg_right ((le_abs_self _).trans ha') (by positivity)
        _ = 2 ^ (422 : Int) := two_zpow_mul rfl
    have hsize : Ordinary (2 ^ (1022 : Int)) :=
      ⟨zpow_le_zpow_right₀ one_le_two (by decide), le_rfl⟩
    have hne : value scale ≠ 0 := by
      rw [value_scale]
      positivity
    refine (near_div hsize hr rfl hne ?_).isFinite
    rw [value_scale, zpow_neg, div_inv_eq_mul, abs_mul, abs_of_pos hpos,
      abs_of_pos (show (0 : ℚ) < 2 ^ (600 : Int) by positivity)]
    calc value (correctedLength (a * scale) (b * scale)) * 2 ^ (600 : Int)
        ≤ 3 * 2 ^ (422 : Int) * 2 ^ (600 : Int) :=
          mul_le_mul_of_nonneg_right (by linarith) (by positivity)
      _ = 3 * 2 ^ (1022 : Int) := by rw [mul_assoc, two_zpow_mul (show (422 : Int) + 600 = 1022 from rfl)]
  | up hl =>
    obtain ⟨hr, hpos, hle⟩ := correctedLength_spec hl
    exact (rounds_reduced hr rfl value_scale (by decide)).isFinite
  | plain hl => exact (correctedLength_spec hl).1

end CurveArt.Binary64
