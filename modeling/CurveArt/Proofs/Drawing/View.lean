import CurveArt.Drawing.Figure
import CurveArt.Proofs.Binary64.Extrema
import CurveArt.Proofs.Binary64.Overflow
import CurveArt.Proofs.Binary64.UnitInterval
import CurveArt.Proofs.Binary64.Whole

/-!
# The part of the plane that is shown

The range shown of an axis is that of the coordinates with a padding on either side. A padding that
is less than half a step of the coordinates is lost when it is added, and one that is too great
takes the range to the infinities. In between, all points lie inside the view.

Main results:

* `extent_spec`: the least and the greatest of the coordinates.
* `padded_covers`: no coordinate lies outside the range.
* `near_encloses`, `apart_encloses`: when all of them lie inside.
* `ofRequest_viewed`: the ranges of a figure.
* `ofRequest_flat_far`: a figure whose points lie on the edge of its view.
-/

namespace CurveArt.Figure

open Binary64
open Float.Model (Format UnpackedFloat)

variable {lo hi x pad : Float} {xs : List Float} {v w p : ℚ}

/-! ## The extent of the coordinates -/

/-- The least and the greatest of finite values are two of them. -/
structure Extent (lo hi : Float) (xs : List Float) : Prop where
  least_mem : lo ∈ xs
  greatest_mem : hi ∈ xs
  between : ∀ x ∈ xs, value lo ≤ value x ∧ value x ≤ value hi

theorem unpacked_infinity : unpacked infinity = .infinity .positive := rfl

theorem unpacked_neg_infinity : unpacked (-infinity) = .infinity .negative := rfl

theorem extent_spec (hne : xs ≠ []) (hxs : ∀ x ∈ xs, x.isFinite = true) :
    Extent (extent xs).1 (extent xs).2 xs := by
  have hnumber : ∀ x ∈ xs, x.isNaN = false := fun x hx => isNaN_of_isFinite (hxs x hx)
  obtain ⟨first, hfirst⟩ := List.exists_mem_of_ne_nil xs hne
  obtain ⟨hleast, hbelow⟩ :=
    chooses_least.foldl infinity (isNaN_of_infinity unpacked_infinity) hnumber
  obtain ⟨hgreatest, habove⟩ :=
    chooses_greatest.foldl (-infinity) (isNaN_of_infinity unpacked_neg_infinity) hnumber
  have hlo : xs.foldl least infinity ∈ xs := by
    refine (List.mem_cons.1 hleast).resolve_left fun heq => ?_
    -- infinity does not come before a finite double
    have hbefore := hbelow first (List.mem_cons_of_mem _ hfirst)
    rw [heq, extended_of_infinity unpacked_infinity] at hbefore
    exact absurd (extended_lt_top (hxs first hfirst)) hbefore.not_gt
  have hhi : xs.foldl greatest (-infinity) ∈ xs := by
    refine (List.mem_cons.1 hgreatest).resolve_left fun heq => ?_
    have hafter := habove first (List.mem_cons_of_mem _ hfirst)
    rw [heq, extended_of_minus unpacked_neg_infinity] at hafter
    exact absurd (bot_lt_extended (hxs first hfirst)) (not_lt.2 hafter)
  exact ⟨hlo, hhi, fun x hx =>
    ⟨value_le_of_extended (hxs _ hlo) (hxs x hx) (hbelow x (List.mem_cons_of_mem _ hx)),
      value_le_of_extended (hxs x hx) (hxs _ hhi) (habove x (List.mem_cons_of_mem _ hx))⟩⟩

/-! ## Padding -/

/-- With a padding that is not negative the range covers what lies between the ends. -/
theorem covers_of_padding (hlo : lo.isFinite = true) (hhi : hi.isFinite = true)
    (hpad : pad.isFinite = true) (hnonneg : 0 ≤ value pad) (hx : x.isFinite = true)
    (hlow : value lo ≤ value x) (hhigh : value x ≤ value hi) : lo - pad ≤ x ∧ x ≤ hi + pad := by
  have hsub := lands_sub hlo hpad
  have hadd := lands_add hhi hpad
  have hx' := isNaN_of_isFinite hx
  exact ⟨(le_iff_extended hsub.isNaN_eq_false hx').2 (hsub.le hx (by linarith)),
    (le_iff_extended hx' hadd.isNaN_eq_false).2 (hadd.ge hx (by linarith))⟩

/-- Rounding moves a padded end by less than its padding, where the end is not too great for it. -/
theorem error_lt_padding (h : Rounds w x) (hbound : |w| < overflowBound) (hw : |w| ≤ |v| + p)
    (hp : 2 ^ (-1000 : Int) ≤ p) (hv : |v| ≤ (2 ^ (53 : Nat) - 2) * p) : |w - value x| < p := by
  have herror := h.error_le_part hbound
  have htiny : (2 : ℚ) ^ (-1075 : Int) < 2 ^ (-1000 : Int) / 2 ^ (53 : Nat) := by
    rw [← zpow_natCast, ← zpow_sub₀ two_ne_zero]
    exact zpow_lt_zpow_right₀ one_lt_two (by decide)
  have hscale : (2 : ℚ) ^ (-1000 : Int) / 2 ^ (53 : Nat) ≤ p / 2 ^ (53 : Nat) :=
    div_le_div_of_nonneg_right hp (by positivity)
  have hpart : |w| / 2 ^ (53 : Nat) ≤ p - p / 2 ^ (53 : Nat) := by
    rw [div_le_iff₀ (by positivity), sub_mul, div_mul_cancel₀ _ (by positivity)]
    linarith
  linarith

/-- All values lie inside a range with finite ends. -/
structure Encloses (range : Float × Float) (xs : List Float) : Prop where
  lower_finite : range.1.isFinite = true
  upper_finite : range.2.isFinite = true
  proper : range.1 < range.2
  inside : ∀ x ∈ xs, range.1 < x ∧ x < range.2

theorem encloses_of_padding (h : Extent lo hi xs) (hxs : ∀ x ∈ xs, x.isFinite = true)
    (hpad : pad.isFinite = true) (hsize : 2 ^ (-1000 : Int) ≤ value pad)
    (hlo : |value lo| ≤ (2 ^ (53 : Nat) - 2) * value pad)
    (hhi : |value hi| ≤ (2 ^ (53 : Nat) - 2) * value pad)
    (hlo' : |value lo| + value pad < overflowBound)
    (hhi' : |value hi| + value pad < overflowBound) : Encloses (lo - pad, hi + pad) xs := by
  have hpos : 0 < value pad := lt_of_lt_of_le (by positivity) hsize
  have hlower : |value lo - value pad| ≤ |value lo| + value pad := by
    have := abs_sub (value lo) (value pad)
    rwa [abs_of_pos hpos] at this
  have hupper : |value hi + value pad| ≤ |value hi| + value pad := by
    have := abs_add_le (value hi) (value pad)
    rwa [abs_of_pos hpos] at this
  have hsub := rounds_sub (hxs lo h.least_mem) hpad (hlower.trans_lt hlo')
  have hadd := rounds_add (hxs hi h.greatest_mem) hpad (hupper.trans_lt hhi')
  have hbelow := (abs_lt.1 (error_lt_padding hsub (hlower.trans_lt hlo') hlower hsize hlo)).1
  have habove := (abs_lt.1 (error_lt_padding hadd (hupper.trans_lt hhi') hupper hsize hhi)).2
  have hinside : ∀ x ∈ xs, lo - pad < x ∧ x < hi + pad := fun x hx => by
    obtain ⟨hx₁, hx₂⟩ := h.between x hx
    exact ⟨(lt_iff_value hsub.isFinite (hxs x hx)).2 (by linarith),
      (lt_iff_value (hxs x hx) hadd.isFinite).2 (by linarith)⟩
  refine ⟨hsub.isFinite, hadd.isFinite, ?_, hinside⟩
  have hlast := (h.between lo h.least_mem).2
  exact (lt_iff_value hsub.isFinite hadd.isFinite).2 (by linarith)

/-! ## Flat ranges -/

theorem value_unitSpacing : unitSpacing.isFinite = true ∧ value unitSpacing = 2 ^ (-52 : Int) :=
  ⟨rfl, value_power
    (show unpacked unitSpacing = .finite .positive (2 ^ 52) (-104) (by decide) from rfl)⟩

theorem value_greatest_one (hx : x.isFinite = true) :
    (greatest x.abs 1.0).isFinite = true ∧ value (greatest x.abs 1.0) = max |value x| 1 := by
  have hx' : x.abs.isFinite = true := (isFinite_abs x).trans hx
  obtain ⟨hone, hge, hge'⟩ := chooses_greatest x.abs 1.0 (isNaN_of_isFinite hx') rfl
  have hfinite : (greatest x.abs 1.0).isFinite = true := by
    rcases hone with h | h <;> rw [h]
    · exact hx'
    · rfl
  have hge := value_le_of_extended hx' hfinite hge
  have hge' := value_le_of_extended (x := 1.0) rfl hfinite hge'
  rw [value_abs] at hge
  rw [value_one] at hge'
  refine ⟨hfinite, le_antisymm ?_ (max_le hge hge')⟩
  rcases hone with h | h <;> rw [h]
  · exact (value_abs x).trans_le (le_max_left _ _)
  · exact value_one.trans_le (le_max_right _ _)

/-- How far apart the values of a flat range are at most, up to rounding. -/
def flatness (v : ℚ) : ℚ :=
  2 ^ (-52 : Int) * max |v| 1

theorem flatness_ge (v : ℚ) : 2 ^ (-52 : Int) ≤ flatness v :=
  le_mul_of_one_le_right (by positivity) (le_max_right _ _)

theorem flatness_pos (v : ℚ) : 0 < flatness v :=
  lt_of_lt_of_le (by positivity) (flatness_ge v)

theorem rounds_flatness (hhi : hi.isFinite = true) :
    flatness (value hi) < overflowBound ∧
      Rounds (flatness (value hi)) (unitSpacing * greatest hi.abs 1.0) := by
  obtain ⟨hspacing, hspacing'⟩ := value_unitSpacing
  obtain ⟨hgreatest, hgreatest'⟩ := value_greatest_one hhi
  have hbound : max |value hi| 1 < overflowBound := max_lt (abs_value_lt hhi)
    ((one_le_zpow₀ one_le_two (by decide)).trans_lt two_pow_lt_overflowBound)
  have hsmall : flatness (value hi) < overflowBound :=
    (mul_le_of_le_one_left (zero_le_one.trans (le_max_right _ _))
      (zpow_le_one_of_nonpos₀ one_le_two (by decide))).trans_lt hbound
  have hrounds := rounds_mul hspacing hgreatest
  rw [hspacing', hgreatest'] at hrounds
  exact ⟨hsmall, hrounds (by rwa [← flatness, abs_of_pos (flatness_pos _)])⟩

theorem padded_eq (hlo : lo.isFinite = true) (hhi : hi.isFinite = true) :
    padded lo hi =
      if hi - lo ≤ unitSpacing * greatest hi.abs 1.0 then (lo - 1.0, hi + 1.0)
      else (lo - (hi - lo) * padding, hi + (hi - lo) * padding) := by
  rw [padded, hlo, hhi]
  rfl

/-- Values that are less than the flatness apart get one unit on either side. -/
theorem padded_flat (hlo : lo.isFinite = true) (hhi : hi.isFinite = true)
    (h : value hi - value lo < flatness (value hi)) : padded lo hi = (lo - 1.0, hi + 1.0) := by
  obtain ⟨hbound, hrounds⟩ := rounds_flatness hhi
  have hlands : Lands (flatness (value hi)) (unitSpacing * greatest hi.abs 1.0) :=
    hrounds.lands (by rwa [abs_of_pos (flatness_pos _)])
  have hsub := lands_sub hhi hlo
  rw [padded_eq hlo hhi, if_pos]
  exact (le_iff_extended hsub.isNaN_eq_false hlands.isNaN_eq_false).2 (hsub.mono hlands h)

/-! ## Padding by a part of the width -/

theorem padding_bounds :
    padding.isFinite = true ∧ 1 / 26 ≤ value padding ∧ value padding ≤ 1 / 24 := by
  have hunpacked : unpacked padding = .finite .positive 5764607523034235 (-57) (by decide) := rfl
  rw [value_eq hunpacked]
  refine ⟨rfl, ?_, ?_⟩ <;> simp only [valueOf, signed] <;> norm_num

/-- The padding of values that are not too close is a part of their distance. -/
theorem pad_bounds (hlo : lo.isFinite = true) (hhi : hi.isFinite = true)
    (hsmall : 2 ^ (-48 : Int) ≤ value hi - value lo)
    (hlarge : value hi - value lo ≤ 2 ^ (1023 : Int)) :
    (value hi - value lo) / 2 ≤ value (hi - lo) ∧ ((hi - lo) * padding).isFinite = true ∧
      (value hi - value lo) / 30 ≤ value ((hi - lo) * padding) ∧
      value ((hi - lo) * padding) ≤ (value hi - value lo) / 16 := by
  obtain ⟨hpadding, hpart, hpart'⟩ := padding_bounds
  have htiny : (2 : ℚ) ^ (-1022 : Int) ≤ 2 ^ (-54 : Int) :=
    zpow_le_zpow_right₀ one_le_two (by decide)
  have hscale : (2 : ℚ) ^ (-48 : Int) = 64 * 2 ^ (-54 : Int) := by norm_num
  have hpos : 0 < value hi - value lo := lt_of_lt_of_le (by positivity) hsmall
  have hbound : value hi - value lo < overflowBound := hlarge.trans_lt two_pow_lt_overflowBound
  have hsub := rounds_sub hhi hlo (by rwa [abs_of_pos hpos])
  obtain ⟨hwidth, hwidth'⟩ := abs_le.1 (hsub.error_le_of_large (by linarith) hbound)
  generalize value hi - value lo = distance at *
  norm_num only at hwidth hwidth'
  have hlow : distance / 27 ≤ value (hi - lo) * value padding := by
    calc distance / 27 ≤ value (hi - lo) * (1 / 26) := by linarith
      _ ≤ value (hi - lo) * value padding := mul_le_mul_of_nonneg_left hpart (by linarith)
  have hhigh : value (hi - lo) * value padding ≤ distance / 20 := by
    calc value (hi - lo) * value padding ≤ value (hi - lo) * (1 / 24) :=
          mul_le_mul_of_nonneg_left hpart' (by linarith)
      _ ≤ distance / 20 := by linarith
  have hmul := rounds_mul hsub.isFinite hpadding (by rw [abs_of_pos] <;> linarith)
  obtain ⟨hpad, hpad'⟩ := abs_le.1 (hmul.error_le_of_large (by linarith) (by linarith))
  norm_num only at hpad hpad'
  exact ⟨by linarith, hmul.isFinite, by linarith, by linarith⟩

/-- Values that are sixteen times the flatness apart get a part of their distance on either side. -/
theorem padded_apart (hlo : lo.isFinite = true) (hhi : hi.isFinite = true)
    (hapart : 16 * flatness (value hi) ≤ value hi - value lo)
    (hlarge : value hi - value lo ≤ 2 ^ (1023 : Int)) :
    padded lo hi = (lo - (hi - lo) * padding, hi + (hi - lo) * padding) := by
  obtain ⟨hbound, hrounds⟩ := rounds_flatness hhi
  have hleast := flatness_ge (value hi)
  have hscale : (2 : ℚ) ^ (-48 : Int) = 16 * 2 ^ (-52 : Int) := by norm_num
  have htiny : (2 : ℚ) ^ (-1022 : Int) ≤ 2 ^ (-52 : Int) :=
    zpow_le_zpow_right₀ one_le_two (by decide)
  have hpos := flatness_pos (value hi)
  have hsub := rounds_sub hhi hlo (by
    rw [abs_of_pos (by linarith)]
    exact hlarge.trans_lt two_pow_lt_overflowBound)
  obtain ⟨hwidth, -⟩ := pad_bounds hlo hhi (by linarith) hlarge
  obtain ⟨hthreshold, -⟩ := abs_le.1 (hrounds.error_le_of_large (by linarith) hbound)
  have hpart : flatness (value hi) / 2 ^ (52 : Nat) ≤ flatness (value hi) :=
    div_le_self hpos.le (one_le_pow₀ one_le_two)
  rw [padded_eq hlo hhi, if_neg]
  rw [le_iff_value hsub.isFinite hrounds.isFinite]
  linarith

/-! ## The range of an axis -/

/-- A width beyond all doubles takes the range to the infinities. -/
theorem padded_wide (hlo : lo.isFinite = true) (hhi : hi.isFinite = true)
    (hw : unpacked (hi - lo) = .infinity .positive) : padded lo hi = (-infinity, infinity) := by
  obtain ⟨hbound, hrounds⟩ := rounds_flatness hhi
  obtain ⟨hpadding, hpart, -⟩ := padding_bounds
  have hpad := infinity_mul_pos hw hpadding (by linarith)
  rw [padded_eq hlo hhi, if_neg]
  · exact Prod.ext (unpacked_injective (sub_infinity hlo hpad))
      (unpacked_injective (add_infinity hhi hpad))
  · rw [le_iff_extended (isNaN_of_infinity hw) (isNaN_of_isFinite hrounds.isFinite),
      extended_of_infinity hw]
    exact not_le.2 (extended_lt_top hrounds.isFinite)

/-- **Nothing lies outside the range.** -/
theorem padded_covers (hlo : lo.isFinite = true) (hhi : hi.isFinite = true)
    (hx : x.isFinite = true) (hlow : value lo ≤ value x) (hhigh : value x ≤ value hi) :
    (padded lo hi).1 ≤ x ∧ x ≤ (padded lo hi).2 := by
  rcases sub_cases hhi hlo (hlow.trans hhigh) with ⟨hw, hnonneg⟩ | hw
  · rw [padded_eq hlo hhi]
    split
    · exact covers_of_padding hlo hhi rfl (value_one ▸ zero_le_one) hx hlow hhigh
    · obtain ⟨hpadding, hpart, hpart'⟩ := padding_bounds
      have hpad : 0 ≤ value (hi - lo) * value padding := mul_nonneg hnonneg (by linarith)
      have hless : value (hi - lo) * value padding ≤ value (hi - lo) :=
        mul_le_of_le_one_right hnonneg (by linarith)
      have hmul := rounds_mul hw hpadding (by
        rw [abs_of_nonneg hpad]
        exact hless.trans_lt ((le_abs_self _).trans_lt (abs_value_lt hw)))
      exact covers_of_padding hlo hhi hmul.isFinite (hmul.nonneg hpad) hx hlow hhigh
  · rw [padded_wide hlo hhi hw,
      le_iff_extended (isNaN_of_infinity unpacked_neg_infinity) (isNaN_of_isFinite hx),
      le_iff_extended (isNaN_of_isFinite hx) (isNaN_of_infinity unpacked_infinity),
      extended_of_minus unpacked_neg_infinity, extended_of_infinity unpacked_infinity]
    exact ⟨bot_le, le_top⟩

/-- **Values next to each other** lie inside their range, unless one unit is too little for them. -/
theorem near_encloses (h : Extent lo hi xs) (hxs : ∀ x ∈ xs, x.isFinite = true)
    (hnear : value hi - value lo < flatness (value hi))
    (hlo : |value lo| ≤ 2 ^ (53 : Nat) - 2) (hhi : |value hi| ≤ 2 ^ (53 : Nat) - 2) :
    Encloses (padded lo hi) xs := by
  have hbound : (2 : ℚ) ^ (53 : Nat) < overflowBound :=
    (pow_le_pow_right₀ one_le_two (show 53 ≤ 1023 by decide)).trans_lt two_pow_lt_overflowBound
  rw [padded_flat (hxs lo h.least_mem) (hxs hi h.greatest_mem) hnear]
  refine encloses_of_padding h hxs rfl ?_ ?_ ?_ ?_ ?_ <;> rw [value_one]
  · exact zpow_le_one_of_nonpos₀ one_le_two (by decide)
  · rwa [mul_one]
  · rwa [mul_one]
  · linarith
  · linarith

/-- Values apart from each other are multiples of their distance. -/
theorem abs_le_of_apart {v w : ℚ} (h : 16 * flatness w ≤ w - v) :
    |v| ≤ (2 ^ (48 : Nat) + 1) * (w - v) ∧ |w| ≤ 2 ^ (48 : Nat) * (w - v) := by
  have hpos := flatness_pos w
  have hmax : |w| ≤ 2 ^ (52 : Nat) * flatness w := by
    have hone : (2 : ℚ) ^ (52 : Nat) * 2 ^ (-52 : Int) = 1 := by norm_num
    rw [flatness, ← mul_assoc, hone, one_mul]
    exact le_max_left _ _
  have hsum := abs_sub w (w - v)
  rw [sub_sub_cancel, abs_of_pos (show 0 < w - v by linarith)] at hsum
  norm_num at hmax ⊢
  constructor <;> linarith

/-- Ends up to a quarter of the greatest double leave room for their padding. -/
theorem room_of_le {v w : ℚ} (hv : |v| ≤ 2 ^ (1022 : Int)) (hw : |w| ≤ 2 ^ (1022 : Int)) :
    w - v ≤ 2 ^ (1023 : Int) ∧ |v| + (w - v) / 16 < overflowBound ∧
      |w| + (w - v) / 16 < overflowBound := by
  have hdouble : (2 : ℚ) ^ (1023 : Int) = 2 ^ (1022 : Int) * 2 := by
    rw [← zpow_add_one₀ two_ne_zero]
    rfl
  have hlarge := two_pow_lt_overflowBound
  obtain ⟨hv₁, hv₂⟩ := abs_le.1 hv
  obtain ⟨hw₁, hw₂⟩ := abs_le.1 hw
  generalize (2 : ℚ) ^ (1023 : Int) = double at *
  generalize (2 : ℚ) ^ (1022 : Int) = bound at *
  exact ⟨by linarith, by linarith, by linarith⟩

/-- **Values apart from each other** lie inside their range, unless they are among the greatest. -/
theorem apart_encloses (h : Extent lo hi xs) (hxs : ∀ x ∈ xs, x.isFinite = true)
    (hapart : 16 * flatness (value hi) ≤ value hi - value lo)
    (hlo : |value lo| ≤ 2 ^ (1022 : Int)) (hhi : |value hi| ≤ 2 ^ (1022 : Int)) :
    Encloses (padded lo hi) xs := by
  have hlo' := hxs lo h.least_mem
  have hhi' := hxs hi h.greatest_mem
  obtain ⟨hfar, hroom, hroom'⟩ := room_of_le hlo hhi
  obtain ⟨hlower, hupper⟩ := abs_le_of_apart hapart
  have hleast := flatness_ge (value hi)
  have hscale : (2 : ℚ) ^ (-48 : Int) = 16 * 2 ^ (-52 : Int) := by norm_num
  have htiny : (2 : ℚ) ^ (-1000 : Int) ≤ 2 ^ (-52 : Int) / 2 ^ (3 : Nat) := by
    rw [← zpow_natCast, ← zpow_sub₀ two_ne_zero]
    exact zpow_le_zpow_right₀ one_le_two (by decide)
  obtain ⟨-, hpad, hpart, hpart'⟩ := pad_bounds hlo' hhi' (by linarith) hfar
  rw [padded_apart hlo' hhi' hapart hfar]
  refine encloses_of_padding h hxs hpad ?_ ?_ ?_ (by linarith) (by linarith)
  · have hstep : (0 : ℚ) < 2 ^ (-52 : Int) := by positivity
    refine htiny.trans ?_
    generalize (2 : ℚ) ^ (-52 : Int) = step at *
    linarith
  · norm_num at hlower ⊢
    linarith
  · norm_num at hupper ⊢
    linarith

/-- Where doubles are four units apart, nothing is left of the unit on either side. -/
theorem padded_far (hx : x.isFinite = true) (hfar : 2 ^ (55 : Nat) ≤ |value x|) :
    padded x x = (x, x) := by
  have hflat : value x - value x < flatness (value x) := by
    rw [sub_self]
    exact flatness_pos _
  have hbound := abs_value_add_one_lt hx
  have hsub := rounds_sub hx (y := 1.0) rfl (by
    have := abs_sub (value x) (value 1.0)
    rw [value_one, abs_one] at this
    rw [value_one]
    linarith)
  have hadd := rounds_add hx (y := 1.0) rfl (by
    have := abs_add_le (value x) (value 1.0)
    rw [value_one, abs_one] at this
    rw [value_one]
    linarith)
  rw [value_one] at hsub hadd
  rw [padded_flat hx hx hflat, eq_of_far hx hfar hsub (by norm_num),
    eq_of_far hx hfar hadd (by norm_num)]

/-! ## The ranges of a figure -/

/-- The range that is shown of an axis whose coordinates have the given least and greatest one. -/
structure Viewed (lo hi : Float) (range : Float × Float) (xs : List Float) : Prop where
  extent : Extent lo hi xs
  /-- No coordinate lies outside. -/
  covers : ∀ x ∈ xs, range.1 ≤ x ∧ x ≤ range.2
  /-- Coordinates closer than the flatness lie inside, where doubles are at most one unit apart. -/
  near : value hi - value lo < flatness (value hi) → |value lo| ≤ 2 ^ (53 : Nat) - 2 →
    |value hi| ≤ 2 ^ (53 : Nat) - 2 → Encloses range xs
  /-- Coordinates at least sixteen times the flatness apart lie inside, up to a quarter of the
  greatest double. -/
  apart : 16 * flatness (value hi) ≤ value hi - value lo → |value lo| ≤ 2 ^ (1022 : Int) →
    |value hi| ≤ 2 ^ (1022 : Int) → Encloses range xs
  /-- A single coordinate is all that is shown where doubles are four units apart. -/
  far : lo = hi → 2 ^ (55 : Nat) ≤ |value lo| → range = (lo, lo)
  /-- Coordinates whose distance is beyond all doubles have no finite range. -/
  wide : overflowBound ≤ value hi - value lo → range = (-infinity, infinity)

theorem padded_viewed (h : Extent lo hi xs) (hxs : ∀ x ∈ xs, x.isFinite = true) :
    Viewed lo hi (padded lo hi) xs := by
  have hlo := hxs lo h.least_mem
  have hhi := hxs hi h.greatest_mem
  refine ⟨h, fun x hx => ?_, near_encloses h hxs, apart_encloses h hxs, ?_, fun hwide => ?_⟩
  · obtain ⟨hlow, hhigh⟩ := h.between x hx
    exact padded_covers hlo hhi (hxs x hx) hlow hhigh
  · rintro rfl hfar
    exact padded_far hlo hfar
  · exact padded_wide hlo hhi ((lands_sub hhi hlo).above hwide)

theorem view_of_isFinite {points : List Point} (h : ∀ p ∈ points, p.isFinite = true) :
    view points =
      (padded (extent (points.map Point.x)).1 (extent (points.map Point.x)).2,
        padded (extent (points.map Point.y)).1 (extent (points.map Point.y)).2) := by
  rw [view, List.filter_eq_self.2 h]

/-- One axis of points that are all finite. -/
theorem axis_viewed {points : List Point} {f : Point → Float} (hne : points ≠ [])
    (hf : ∀ p ∈ points, (f p).isFinite = true) :
    Viewed (extent (points.map f)).1 (extent (points.map f)).2
      (padded (extent (points.map f)).1 (extent (points.map f)).2) (points.map f) := by
  have hxs : ∀ x ∈ points.map f, x.isFinite = true := fun x hx => by
    obtain ⟨p, hp, rfl⟩ := List.mem_map.1 hx
    exact hf p hp
  exact padded_viewed (extent_spec (mt List.map_eq_nil_iff.1 hne) hxs) hxs

/-- **The view of a figure**: no point lies outside, and all of them lie inside unless the padding
of an axis is too small or too great for its coordinates. -/
theorem ofRequest_viewed (request : Request) (size : Float × Float) (hne : request.points ≠ [])
    (hfinite : ∀ p ∈ request.points, p.isFinite = true) :
    ∃ xLo xHi yLo yHi,
      Viewed xLo xHi (ofRequest request size).xRange (request.points.map Point.x) ∧
      Viewed yLo yHi (ofRequest request size).yRange (request.points.map Point.y) := by
  have hx := axis_viewed (f := Point.x) hne fun p hp => (Bool.and_eq_true_iff.1 (hfinite p hp)).1
  have hy := axis_viewed (f := Point.y) hne fun p hp => (Bool.and_eq_true_iff.1 (hfinite p hp)).2
  rw [show (ofRequest request size).xRange = (view request.points).1 from rfl,
    show (ofRequest request size).yRange = (view request.points).2 from rfl,
    view_of_isFinite hfinite]
  exact ⟨_, _, _, _, hx, hy⟩

/-- A request with two points on one level. -/
def levelRequest (y : Float) : Request :=
  Request.assemble [⟨0.0, y⟩, ⟨1.0, y⟩] [] [] Settings.default

/-- Near zero the points lie inside the view. -/
theorem ofRequest_viewed_level :
    Encloses (ofRequest (levelRequest 3.0) (12.0, 10.0)).yRange [3.0, 3.0] := by
  obtain ⟨-, -, lo, hi, -, hy⟩ := ofRequest_viewed (levelRequest 3.0) (12.0, 10.0)
    (List.cons_ne_nil _ _) (by decide +kernel)
  obtain rfl : lo = 3.0 := by simpa using List.mem_pair.1 hy.extent.least_mem
  obtain rfl : hi = 3.0 := by simpa using List.mem_pair.1 hy.extent.greatest_mem
  have hvalue : value 3.0 = 3 := by
    have hunpacked : unpacked 3.0 = .finite .positive 6755399441055744 (-51) (by decide) := rfl
    rw [value_eq hunpacked]
    simp only [valueOf, signed]
    norm_num
  refine hy.near ?_ ?_ ?_
  · rw [sub_self]
    exact flatness_pos _
  · rw [hvalue]
    norm_num
  · rw [hvalue]
    norm_num

/-- Far from zero they lie on its edge. -/
theorem ofRequest_flat_far :
    (∀ p ∈ (levelRequest 1e17).points, p.isFinite = true) ∧
      ((ofRequest (levelRequest 1e17) (12.0, 10.0)).yRange.2 == 1e17) = true ∧
      ¬Encloses (ofRequest (levelRequest 1e17) (12.0, 10.0)).yRange [1e17, 1e17] := by
  have hedge : ¬1e17 < (ofRequest (levelRequest 1e17) (12.0, 10.0)).yRange.2 := by decide +kernel
  exact ⟨by decide +kernel, by decide +kernel,
    fun h => hedge (h.inside 1e17 List.mem_cons_self).2⟩

end CurveArt.Figure
