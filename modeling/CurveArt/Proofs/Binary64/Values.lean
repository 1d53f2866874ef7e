import CurveArt.Proofs.Binary64.Halving

/-!
# The numbers that doubles are

A finite double is a rational number, and comparing doubles is comparing these numbers. Together
with the two infinities they are in one order, in which every double has its place that is a number
at all.

Main results:

* `lt_iff_value`, `le_iff_value`: comparisons of finite doubles.
* `lt_iff_extended`: comparisons of all doubles that can be compared.
* `eq_of_value`: but for the two zeros, a finite double is given by its number.
-/

namespace CurveArt.Binary64

open Float.Model (Format UnpackedFloat)
open Float.Model.UnpackedFloat

variable {m m' : Nat} {q q' : Int} {x y z : Float}

/-! ## Numbers -/

/-- A number with a sign. -/
def signed (sign : UnpackedFloat.Sign) (v : ℚ) : ℚ :=
  match sign with
  | .positive => v
  | .negative => -v

theorem abs_signed (sign : UnpackedFloat.Sign) (v : ℚ) : |signed sign v| = |v| := by
  cases sign with
  | positive => rfl
  | negative => exact abs_neg v

/-- The number that an unpacked double is, and zero for one that is not finite. -/
def valueOf : UnpackedFloat → ℚ
  | .finite sign m q _ => signed sign ((m : ℚ) * 2 ^ q)
  | _ => 0

theorem valueOf_zero (sign : UnpackedFloat.Sign) : valueOf (.zero sign) = 0 := rfl

/-- The number that a finite double is. -/
def value (x : Float) : ℚ :=
  valueOf (unpacked x)

theorem value_eq {u : UnpackedFloat} (h : unpacked x = u) : value x = valueOf u := by
  unfold value
  rw [h]

theorem Canonical.value_pos (h : Canonical m q) : (0 : ℚ) < (m : ℚ) * 2 ^ q := by
  have hm : (0 : ℚ) < m := by exact_mod_cast h.pos
  positivity

/-- The size of a double in parts. -/
theorem Canonical.abs_value {sign : UnpackedFloat.Sign} {hm : 0 < m} (h : Canonical m q)
    (hx : unpacked x = .finite sign m q hm) : |value x| = (m : ℚ) * 2 ^ q := by
  rw [value_eq hx]
  exact (abs_signed sign _).trans (abs_of_pos h.value_pos)

/-- The greater exponent belongs to the greater number. -/
theorem Canonical.lt_of_exponent (h : Canonical m q) (h' : Canonical m' q') (hq : q < q') :
    (m : ℚ) * 2 ^ q < m' * 2 ^ q' := by
  have hleast := h.least
  have hlt : (m : ℚ) < 2 ^ (53 : Nat) := by exact_mod_cast h.lt
  have hfull : (2 : ℚ) ^ (52 : Nat) ≤ m' := by
    exact_mod_cast h'.full.resolve_left (by omega)
  have hstep : (2 : ℚ) ^ (q + 1) ≤ 2 ^ q' := zpow_le_zpow_right₀ one_le_two (by omega)
  have hscale : (0 : ℚ) < 2 ^ q := by positivity
  calc (m : ℚ) * 2 ^ q < 2 ^ (53 : Nat) * 2 ^ q := mul_lt_mul_of_pos_right hlt hscale
    _ = 2 ^ (52 : Nat) * 2 ^ (q + 1) := by
      rw [zpow_add_one₀ two_ne_zero]
      ring
    _ ≤ m' * 2 ^ q' := mul_le_mul hfull hstep (by positivity) (by positivity)

/-- Numbers are compared by their exponents, and by their mantissas where these are equal. -/
theorem Canonical.compare_eq (h : Canonical m q) (h' : Canonical m' q') :
    (compare q q').then (compare m m') = compare ((m : ℚ) * 2 ^ q) (m' * 2 ^ q') := by
  rcases lt_trichotomy q q' with hq | rfl | hq
  · rw [compare_lt_iff_lt.2 hq, compare_lt_iff_lt.2 (h.lt_of_exponent h' hq)]
    rfl
  · have hscale : (0 : ℚ) < 2 ^ q := by positivity
    rw [compare_eq_iff_eq.2 rfl]
    show compare m m' = _
    rcases lt_trichotomy m m' with hm | rfl | hm
    · have hm' : (m : ℚ) < m' := by exact_mod_cast hm
      rw [compare_lt_iff_lt.2 hm, compare_lt_iff_lt.2 (mul_lt_mul_of_pos_right hm' hscale)]
    · rw [compare_eq_iff_eq.2 rfl, compare_eq_iff_eq.2 rfl]
    · have hm' : (m' : ℚ) < m := by exact_mod_cast hm
      rw [compare_gt_iff_gt.2 hm, compare_gt_iff_gt.2 (mul_lt_mul_of_pos_right hm' hscale)]
  · rw [compare_gt_iff_gt.2 hq, compare_gt_iff_gt.2 (h'.lt_of_exponent h hq)]
    rfl

/-- The kinds of finite doubles. -/
theorem cases_of_isFinite (h : x.isFinite = true) :
    (∃ sign, unpacked x = .zero sign) ∨
      ∃ sign m q hm, unpacked x = .finite sign m q hm ∧ Canonical m q := by
  rw [isFinite_eq] at h
  cases hx : unpacked x with
  | notANumber =>
    rw [hx] at h
    cases h
  | infinity sign =>
    rw [hx] at h
    cases h
  | zero sign => exact .inl ⟨sign, rfl⟩
  | finite sign m q hm => exact .inr ⟨sign, m, q, hm, rfl, canonical_of_unpacked hx⟩

/-- The least of the positive doubles. -/
theorem Canonical.least_le_value (h : Canonical m q) : (2 : ℚ) ^ (-1074 : Int) ≤ (m : ℚ) * 2 ^ q := by
  have hm : (1 : ℚ) ≤ m := by exact_mod_cast h.pos
  calc (2 : ℚ) ^ (-1074 : Int) ≤ 2 ^ q := zpow_le_zpow_right₀ one_le_two h.least
    _ ≤ m * 2 ^ q := le_mul_of_one_le_left (by positivity) hm

/-- The greatest of all doubles. -/
theorem Canonical.value_le_greatest (h : Canonical m q) :
    (m : ℚ) * 2 ^ q ≤ (2 ^ (53 : Nat) - 1) * 2 ^ (971 : Int) := by
  have hm : (m : ℚ) + 1 ≤ 2 ^ (53 : Nat) := by exact_mod_cast h.lt
  have hm' : (m : ℚ) ≤ 2 ^ (53 : Nat) - 1 := by linarith
  have hq : (2 : ℚ) ^ q ≤ 2 ^ (971 : Int) := zpow_le_zpow_right₀ one_le_two h.greatest
  exact mul_le_mul hm' hq (by positivity) (by norm_num)

theorem compare_neg_neg (v w : ℚ) : compare (-v) (-w) = (compare v w).swap := by
  rcases lt_trichotomy v w with h | rfl | h
  · rw [compare_lt_iff_lt.2 h, compare_gt_iff_gt.2 (neg_lt_neg h)]
    rfl
  · rw [compare_eq_iff_eq.2 rfl, compare_eq_iff_eq.2 rfl]
    rfl
  · rw [compare_gt_iff_gt.2 h, compare_lt_iff_lt.2 (neg_lt_neg h)]
    rfl

/-- Finite doubles are compared as numbers. -/
theorem compare_eq_value (hx : x.isFinite = true) (hy : y.isFinite = true) :
    (unpacked x).compare (unpacked y) = some (compare (value x) (value y)) := by
  rcases cases_of_isFinite hx with ⟨s, hx⟩ | ⟨s, m, q, hm, hx, hc⟩ <;>
    rcases cases_of_isFinite hy with ⟨s', hy⟩ | ⟨s', m', q', hm', hy, hc'⟩ <;>
    rw [value_eq hx, value_eq hy, hx, hy]
  · rw [valueOf_zero, valueOf_zero, compare_eq_iff_eq.2 rfl]
    rfl
  · have hpos := hc'.value_pos
    cases s' with
    | positive => exact congrArg some (compare_lt_iff_lt.2 hpos).symm
    | negative => exact congrArg some (compare_gt_iff_gt.2 (neg_neg_of_pos hpos)).symm
  · have hpos := hc.value_pos
    cases s with
    | positive => exact congrArg some (compare_gt_iff_gt.2 hpos).symm
    | negative => exact congrArg some (compare_lt_iff_lt.2 (neg_neg_of_pos hpos)).symm
  · have hpos := hc.value_pos
    have hpos' := hc'.value_pos
    cases s with
    | positive =>
      cases s' with
      | positive => exact congrArg some (hc.compare_eq hc')
      | negative =>
        have hlt : -((m' : ℚ) * 2 ^ q') < (m : ℚ) * 2 ^ q := by linarith
        exact congrArg some (compare_gt_iff_gt.2 hlt).symm
    | negative =>
      cases s' with
      | positive =>
        have hlt : -((m : ℚ) * 2 ^ q) < (m' : ℚ) * 2 ^ q' := by linarith
        exact congrArg some (compare_lt_iff_lt.2 hlt).symm
      | negative =>
        show some ((compare q q').then (compare m m')).swap =
          some (compare (-((m : ℚ) * 2 ^ q)) (-((m' : ℚ) * 2 ^ q')))
        rw [compare_neg_neg, hc.compare_eq hc']

theorem lt_iff_value (hx : x.isFinite = true) (hy : y.isFinite = true) :
    x < y ↔ value x < value y := by
  rw [lt_iff, compare_eq_value hx hy, Option.some_inj, compare_lt_iff_lt]

theorem le_iff_value (hx : x.isFinite = true) (hy : y.isFinite = true) :
    x ≤ y ↔ value x ≤ value y := by
  rw [le_iff, compare_eq_value hx hy]
  show (compare (value x) (value y)).isLE = true ↔ _
  rcases lt_trichotomy (value x) (value y) with h | h | h
  · rw [compare_lt_iff_lt.2 h]
    exact iff_of_true rfl h.le
  · rw [compare_eq_iff_eq.2 h]
    exact iff_of_true rfl h.le
  · rw [compare_gt_iff_gt.2 h]
    exact iff_of_false Bool.false_ne_true (not_le.2 h)

/-- A finite double other than zero is given by its number. -/
theorem eq_of_value (hx : x.isFinite = true) (hy : y.isFinite = true) (h : value x = value y)
    (hne : value x ≠ 0) : x = y := by
  refine unpacked_injective ?_
  rcases cases_of_isFinite hx with ⟨s, hx⟩ | ⟨s, m, q, hm, hx, hc⟩
  · exact absurd (value_eq hx) hne
  rcases cases_of_isFinite hy with ⟨s', hy⟩ | ⟨s', m', q', hm', hy, hc'⟩
  · exact absurd (h.trans (value_eq hy)) hne
  rw [value_eq hx, value_eq hy] at h
  have hpos := hc.value_pos
  have hpos' := hc'.value_pos
  -- numbers of one sign are equal in both parts, and those of different signs are not equal
  have hparts (heq : (m : ℚ) * 2 ^ q = m' * 2 ^ q') : m = m' ∧ q = q' := by
    have hcompare := hc.compare_eq hc'
    rw [heq, compare_eq_iff_eq.2 rfl, Ordering.then_eq_eq, compare_eq_iff_eq,
      compare_eq_iff_eq] at hcompare
    exact ⟨hcompare.2, hcompare.1⟩
  rw [hx, hy]
  cases s with
  | positive =>
    cases s' with
    | positive =>
      obtain ⟨rfl, rfl⟩ := hparts h
      rfl
    | negative =>
      have h : (m : ℚ) * 2 ^ q = -((m' : ℚ) * 2 ^ q') := h
      linarith
  | negative =>
    cases s' with
    | positive =>
      have h : -((m : ℚ) * 2 ^ q) = (m' : ℚ) * 2 ^ q' := h
      linarith
    | negative =>
      obtain ⟨rfl, rfl⟩ := hparts (neg_injective h)
      rfl

/-- The parts of a positive double. -/
theorem unpacked_of_value_pos (hx : x.isFinite = true) (hpos : 0 < value x) :
    ∃ m q hm, unpacked x = .finite .positive m q hm ∧ Canonical m q ∧
      value x = (m : ℚ) * 2 ^ q := by
  rcases cases_of_isFinite hx with ⟨s, hx⟩ | ⟨s, m, q, hm, hx, hc⟩
  · rw [value_eq hx] at hpos
    exact absurd hpos (lt_irrefl 0)
  · cases s with
    | positive => exact ⟨m, q, hm, hx, hc, value_eq hx⟩
    | negative =>
      rw [value_eq hx] at hpos
      have hneg : (0 : ℚ) < -((m : ℚ) * 2 ^ q) := hpos
      have hvalue := hc.value_pos
      linarith

theorem least_le_value (hx : x.isFinite = true) (hpos : 0 < value x) :
    (2 : ℚ) ^ (-1074 : Int) ≤ value x := by
  obtain ⟨m, q, hm, -, hc, hvalue⟩ := unpacked_of_value_pos hx hpos
  rw [hvalue]
  exact hc.least_le_value

/-! ## With the infinities -/

/-- The place of a double among all numbers and the two infinities. -/
def extended (x : Float) : WithBot (WithTop ℚ) :=
  match unpacked x with
  | .infinity .positive => ⊤
  | .infinity .negative => ⊥
  | _ => ((value x : WithTop ℚ) : WithBot (WithTop ℚ))

theorem isNaN_eq (x : Float) : x.isNaN = (unpacked x).isNaN := rfl

theorem isInf_eq (x : Float) : x.isInf = (unpacked x).isInf := rfl

theorem extended_of_isFinite (h : x.isFinite = true) :
    extended x = ((value x : WithTop ℚ) : WithBot (WithTop ℚ)) := by
  unfold extended
  rcases cases_of_isFinite h with ⟨s, hx⟩ | ⟨s, m, q, hm, hx, -⟩ <;> rw [hx]

theorem extended_of_infinity (h : unpacked x = .infinity .positive) : extended x = ⊤ := by
  unfold extended
  rw [h]

theorem extended_of_minus (h : unpacked x = .infinity .negative) : extended x = ⊥ := by
  unfold extended
  rw [h]

/-- A double that is a number at all is an infinity or finite. -/
theorem cases_of_isNaN (h : x.isNaN = false) :
    unpacked x = .infinity .positive ∨ unpacked x = .infinity .negative ∨ x.isFinite = true := by
  rw [isNaN_eq] at h
  rw [isFinite_eq]
  cases hx : unpacked x with
  | notANumber =>
    rw [hx] at h
    cases h
  | infinity sign =>
    cases sign with
    | positive => exact .inl rfl
    | negative => exact .inr (.inl rfl)
  | zero sign => exact .inr (.inr rfl)
  | finite sign m q hm => exact .inr (.inr rfl)

theorem isNaN_of_isFinite (h : x.isFinite = true) : x.isNaN = false := by
  rw [isNaN_eq]
  rcases cases_of_isFinite h with ⟨s, hx⟩ | ⟨s, m, q, hm, hx, -⟩ <;> rw [hx] <;> rfl

theorem unpacked_of_isNaN (h : x.isNaN = true) : unpacked x = .notANumber := by
  rw [isNaN_eq] at h
  cases hx : unpacked x with
  | notANumber => rfl
  | infinity | zero | finite =>
    rw [hx] at h
    cases h

theorem isInf_of_isFinite (h : x.isFinite = true) : x.isInf = false := by
  rw [isInf_eq]
  rcases cases_of_isFinite h with ⟨s, hx⟩ | ⟨s, m, q, hm, hx, -⟩ <;> rw [hx] <;> rfl

theorem bot_lt_extended (h : x.isFinite = true) : ⊥ < extended x := by
  rw [extended_of_isFinite h]
  exact WithBot.bot_lt_coe _

theorem extended_lt_top (h : x.isFinite = true) : extended x < ⊤ := by
  rw [extended_of_isFinite h]
  exact WithBot.coe_lt_coe.2 (WithTop.coe_lt_top _)

theorem value_le_of_extended (hx : x.isFinite = true) (hy : y.isFinite = true)
    (h : extended x ≤ extended y) : value x ≤ value y := by
  rw [extended_of_isFinite hx, extended_of_isFinite hy] at h
  exact_mod_cast h

/-- An infinity is beyond all finite doubles on its side. -/
theorem compare_infinity (sign : UnpackedFloat.Sign) (h : x.isFinite = true) :
    (UnpackedFloat.infinity sign).compare (unpacked x) =
        some (match sign with | .positive => .gt | .negative => .lt) ∧
      (unpacked x).compare (.infinity sign) =
        some (match sign with | .positive => .lt | .negative => .gt) := by
  rcases cases_of_isFinite h with ⟨s, hx⟩ | ⟨s, m, q, hm, hx, -⟩ <;> rw [hx] <;>
    cases sign <;> cases s <;> exact ⟨rfl, rfl⟩

/-- What lies between two finite doubles is finite. -/
theorem isFinite_of_between (hx : x.isFinite = true) (hy : y.isFinite = true) (hlow : x ≤ z)
    (hhigh : z ≤ y) : z.isFinite = true := by
  rw [le_iff] at hlow hhigh
  rw [isFinite_eq]
  cases hz : unpacked z with
  | notANumber =>
    rw [hz] at hhigh
    cases hhigh
  | infinity sign =>
    rw [hz, (compare_infinity sign hx).2] at hlow
    rw [hz, (compare_infinity sign hy).1] at hhigh
    cases sign with
    | positive => cases hhigh
    | negative => cases hlow
  | zero sign => rfl
  | finite sign m q hm => rfl

/-- Doubles that are numbers at all are compared by their places. -/
theorem compare_eq_extended (hx : x.isNaN = false) (hy : y.isNaN = false) :
    (unpacked x).compare (unpacked y) = some (compare (extended x) (extended y)) := by
  rcases cases_of_isNaN hx with hx | hx | hx
  · rw [extended_of_infinity hx, hx]
    rcases cases_of_isNaN hy with hy | hy | hy
    · rw [extended_of_infinity hy, hy, compare_eq_iff_eq.2 rfl]
      rfl
    · rw [extended_of_minus hy, hy, compare_gt_iff_gt.2 bot_lt_top]
      rfl
    · rw [(compare_infinity .positive hy).1, compare_gt_iff_gt.2 (extended_lt_top hy)]
  · rw [extended_of_minus hx, hx]
    rcases cases_of_isNaN hy with hy | hy | hy
    · rw [extended_of_infinity hy, hy, compare_lt_iff_lt.2 bot_lt_top]
      rfl
    · rw [extended_of_minus hy, hy, compare_eq_iff_eq.2 rfl]
      rfl
    · rw [(compare_infinity .negative hy).1, compare_lt_iff_lt.2 (bot_lt_extended hy)]
  · rcases cases_of_isNaN hy with hy | hy | hy
    · rw [extended_of_infinity hy, hy, (compare_infinity .positive hx).2,
        compare_lt_iff_lt.2 (extended_lt_top hx)]
    · rw [extended_of_minus hy, hy, (compare_infinity .negative hx).2,
        compare_gt_iff_gt.2 (bot_lt_extended hx)]
    · rw [compare_eq_value hx hy, extended_of_isFinite hx, extended_of_isFinite hy]
      -- the order of numbers is that of their places
      rcases lt_trichotomy (value x) (value y) with h | h | h
      · rw [compare_lt_iff_lt.2 h, compare_lt_iff_lt.2 (by exact_mod_cast h)]
      · rw [compare_eq_iff_eq.2 h, h, compare_eq_iff_eq.2 rfl]
      · rw [compare_gt_iff_gt.2 h, compare_gt_iff_gt.2 (by exact_mod_cast h)]

theorem lt_iff_extended (hx : x.isNaN = false) (hy : y.isNaN = false) :
    x < y ↔ extended x < extended y := by
  rw [lt_iff, compare_eq_extended hx hy, Option.some_inj, compare_lt_iff_lt]

end CurveArt.Binary64
