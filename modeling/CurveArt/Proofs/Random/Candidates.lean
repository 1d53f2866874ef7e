import CurveArt.Proofs.Binary64.Hypotenuse
import CurveArt.Proofs.Random.Rejection

/-!
# Candidates around zero

A candidate of a draw between `-half` and `half` is computed with three roundings, and the last one
is the reason for rejecting it: close to the upper end it can be rounded to `half` itself. It is
never rounded below the lower end, and the upper one is reached only where the range is so small that
the error of underflow counts.

Main results:

* `HalfWidth.neg_le_candidateAt`: no candidate lies below the range.
* `HalfWidth.candidateAt_lt`: candidates of ordinary ranges are never rejected.
-/

namespace CurveArt.Random.Stream

open Binary64

/-- The part of the range at which a candidate lies: a multiple of `2⁻⁵²` below one. -/
def part (bits : UInt64) : Float :=
  (bits >>> 12).toFloat * Float.ofBits 0x3cb0000000000000

theorem part_bounds (bits : UInt64) : (part bits).isFinite = true ∧ 0 ≤ value (part bits) ∧
    value (part bits) ≤ 1 - 2 ^ (-52 : Int) := by
  obtain ⟨hbits, hfinite, hvalue⟩ := value_upperBits bits (k := 12) (by decide) (by decide)
  have hstep : value (Float.ofBits 0x3cb0000000000000) = 2 ^ (-52 : Int) :=
    value_power (show unpacked (Float.ofBits 0x3cb0000000000000) =
      .finite .positive (2 ^ 52) (-104) (by decide) from rfl)
  have hrounds := rounds_reduced hfinite rfl hstep (by decide)
  rw [hvalue] at hrounds
  refine ⟨hrounds.isFinite, hrounds.nonneg (by positivity), ?_⟩
  -- the greatest double below one is out of reach
  have hgreatest : value (Float.ofBits 0x3feffffffffffffe) = 1 - 2 ^ (-52 : Int) := by
    rw [value_eq (show unpacked (Float.ofBits 0x3feffffffffffffe) =
      .finite .positive (2 ^ 53 - 2) (-53) (by decide) from rfl)]
    show ((2 ^ 53 - 2 : Nat) : ℚ) * 2 ^ (-53 : Int) = _
    norm_num
  rw [← hgreatest]
  refine hrounds.le rfl ?_
  rw [hgreatest]
  have hless : ((bits >>> 12).toNat : ℚ) ≤ 2 ^ (52 : Nat) - 1 := by
    rw [le_sub_iff_add_le]
    exact_mod_cast hbits
  calc ((bits >>> 12).toNat : ℚ) * 2 ^ (-52 : Int)
      ≤ (2 ^ (52 : Nat) - 1) * 2 ^ (-52 : Int) := mul_le_mul_of_nonneg_right hless (by positivity)
    _ = 1 - 2 ^ (-52 : Int) := by norm_num

/-- A double that can be half of a width: positive, and the width is a double as well. -/
structure HalfWidth (half : Float) : Prop where
  isFinite : half.isFinite = true
  pos : 0 < value half
  width_isFinite : (half - -half).isFinite = true
  value_width : value (half - -half) = 2 * value half

variable {half : Float}

theorem halfWidth_of_unpacked {m : Nat} {q : Int} {h : 0 < m}
    (hhalf : unpacked half = .finite .positive m q h) (hq : q ≤ 970) : HalfWidth half := by
  have hc := canonical_of_unpacked hhalf
  have hfinite : half.isFinite = true := by
    rw [isFinite_eq, hhalf]
    rfl
  have hvalue : value half = m * 2 ^ q := value_eq hhalf
  obtain ⟨m', q', hc', hdouble⟩ := exists_canonical_double hc hq
  -- the width itself is a double, so that nothing is rounded
  have hwidth := unpacked_packed hc' .positive hc'.pos
  have hwidth' : (packed (.finite .positive m' q' hc'.pos)).isFinite = true := by
    rw [isFinite_eq, hwidth]
    rfl
  have hexact : value half - value (-half) = value (packed (.finite .positive m' q' hc'.pos)) := by
    rw [value_neg, value_eq hwidth, hvalue]
    show (m : ℚ) * 2 ^ q - -((m : ℚ) * 2 ^ q) = m' * 2 ^ q'
    rw [← hdouble]
    push_cast
    ring
  have hrounds := rounds_sub hfinite ((isFinite_neg half).trans hfinite)
    (hexact ▸ abs_value_lt hwidth')
  refine ⟨hfinite, hvalue ▸ hc.value_pos, hrounds.isFinite, ?_⟩
  rw [hexact] at hrounds
  rw [hrounds.eq hwidth', ← hexact, value_neg]
  ring

namespace HalfWidth

variable (h : HalfWidth half) (s : Stream) (i : Nat)
include h

theorem value_neg_half : (-half).isFinite = true ∧ value (-half) = -value half :=
  ⟨(isFinite_neg half).trans h.isFinite, value_neg half⟩

theorem range : -half < half ∧ (half - -half).isFinite = true := by
  obtain ⟨hfinite, hvalue⟩ := h.value_neg_half
  rw [lt_iff_value hfinite h.isFinite, hvalue]
  exact ⟨neg_lt_self h.pos, h.width_isFinite⟩

/-- How far a candidate is from the lower end before that is added. -/
theorem rounds_distance (bits : UInt64) :
    Rounds (value (part bits) * (2 * value half)) (part bits * (half - -half)) ∧
      0 ≤ value (part bits * (half - -half)) ∧
        value (part bits * (half - -half)) ≤ 2 * value half := by
  have hpos := h.pos
  obtain ⟨hfinite, hnonneg, hle⟩ := part_bounds bits
  have hone : value (part bits) ≤ 1 := hle.trans (sub_le_self 1 (by positivity))
  have hlow : 0 ≤ value (part bits) * value (half - -half) := by
    rw [h.value_width]
    positivity
  have hhigh : value (part bits) * value (half - -half) ≤ value (half - -half) := by
    rw [h.value_width]
    exact mul_le_of_le_one_left (by positivity) hone
  have hrounds := rounds_mul hfinite h.width_isFinite <| by
    rw [abs_of_nonneg hlow]
    exact (hhigh.trans (le_abs_self _)).trans_lt (abs_value_lt h.width_isFinite)
  refine ⟨h.value_width ▸ hrounds, hrounds.nonneg hlow, ?_⟩
  rw [← h.value_width]
  exact hrounds.le h.width_isFinite hhigh

/-- A candidate is that distance above the lower end. -/
theorem rounds_candidate (bits : UInt64) :
    Rounds (value (part bits * (half - -half)) - value half)
      (candidate (-half) (half - -half) bits) := by
  obtain ⟨hrounds, hlow, hhigh⟩ := h.rounds_distance bits
  obtain ⟨hneg, hvalue⟩ := h.value_neg_half
  have hsum : value (part bits * (half - -half)) - value half =
      value (part bits * (half - -half)) + value (-half) := by
    rw [hvalue]
    ring
  rw [hsum]
  refine rounds_add hrounds.isFinite hneg ?_
  rw [hvalue]
  exact (abs_le.2 ⟨by linarith, by linarith⟩).trans_lt
    ((le_abs_self (value half)).trans_lt (abs_value_lt h.isFinite))

/-- No candidate lies below the range. -/
theorem neg_le_candidateAt : -half ≤ s.candidateAt (-half) half i := by
  obtain ⟨-, hlow, -⟩ := h.rounds_distance (s.skip (2 * i)).longWord.1
  obtain ⟨hneg, hvalue⟩ := h.value_neg_half
  have hrounds := h.rounds_candidate (s.skip (2 * i)).longWord.1
  refine (le_iff_value hneg hrounds.isFinite).2 (hrounds.ge hneg ?_)
  rw [hvalue]
  linarith

/-- The distance from the lower end falls short of the width by more than its own error. -/
theorem distance_le (bits : UInt64) : value (part bits * (half - -half)) ≤
    (1 + 1 / 2 ^ (53 : Nat)) * ((1 - 2 ^ (-52 : Int)) * (2 * value half)) + 2 ^ (-1075 : Int) := by
  have hpos := h.pos
  obtain ⟨-, hnonneg, hpart⟩ := part_bounds bits
  obtain ⟨hrounds, -, -⟩ := h.rounds_distance bits
  have hexact : 0 ≤ value (part bits) * (2 * value half) := by positivity
  have hroom : value (part bits) * (2 * value half) ≤ (1 - 2 ^ (-52 : Int)) * (2 * value half) :=
    mul_le_mul_of_nonneg_right hpart (by positivity)
  have hwidth := (le_abs_self _).trans_lt (abs_value_lt h.width_isFinite)
  rw [h.value_width] at hwidth
  have herror := hrounds.error_le_part <| by
    rw [abs_of_nonneg hexact]
    exact (mul_le_of_le_one_left (by positivity)
      (hpart.trans (sub_le_self 1 (by positivity)))).trans_lt hwidth
  rw [abs_of_nonneg hexact] at herror
  have hlow := (abs_le.1 herror).1
  calc value (part bits * (half - -half))
      ≤ value (part bits) * (2 * value half) +
          (value (part bits) * (2 * value half) / 2 ^ (53 : Nat) + 2 ^ (-1075 : Int)) := by linarith
    _ = (1 + 1 / 2 ^ (53 : Nat)) * (value (part bits) * (2 * value half)) + 2 ^ (-1075 : Int) := by
      ring
    _ ≤ _ := by gcongr

/-- No candidate lies above the range, unless this is as small as the errors of underflow. -/
theorem candidateAt_lt (hlarge : 2 ^ (-1021 : Int) ≤ value half) :
    s.candidateAt (-half) half i < half := by
  set bits := (s.skip (2 * i)).longWord.1
  obtain ⟨-, hlow, hhigh⟩ := h.rounds_distance bits
  have hdistance := h.distance_le bits
  have hcandidate := h.rounds_candidate bits
  have hmiddle : |value (part bits * (half - -half)) - value half| ≤ value half :=
    abs_le.2 ⟨by linarith, by linarith⟩
  have herror := hcandidate.error_le_part
    (hmiddle.trans_lt ((le_abs_self _).trans_lt (abs_value_lt h.isFinite)))
  have hpart := div_le_div_of_nonneg_right hmiddle (show (0 : ℚ) ≤ 2 ^ (53 : Nat) by positivity)
  have hsum := (abs_le.1 (herror.trans (add_le_add_left hpart _))).1
  have htiny : 2 * (2 : ℚ) ^ (-1075 : Int) ≤ value half / 2 ^ (53 : Nat) := by
    rw [le_div_iff₀ (by positivity), mul_assoc, ← zpow_natCast (2 : ℚ) 53,
      two_zpow_mul (l := -1022) rfl, ← zpow_one_add₀ two_ne_zero]
    exact hlarge
  have hpos := h.pos
  refine (lt_iff_value hcandidate.isFinite h.isFinite).2 ?_
  show value (candidate (-half) (half - -half) bits) < value half
  -- the error of underflow is left as it is, and all other powers are numbers
  generalize (2 : ℚ) ^ (-1075 : Int) = ε at hdistance hsum htiny
  norm_num at hdistance hsum htiny
  linarith

end HalfWidth

end CurveArt.Random.Stream
