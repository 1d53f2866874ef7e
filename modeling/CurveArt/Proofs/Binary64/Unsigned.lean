import CurveArt.Proofs.Binary64.Scientific

/-!
# Doubles without a minus sign

What a numeral without a sign reads as has no sign either: it is a positive double, the zero without
a sign, or infinity where the numeral is beyond all doubles.

Main results:

* `unsigned_packed`: packing keeps the sign, whatever the mantissa and the exponent are.
* `unsigned_ofScientific`: the double of a coefficient and a power of ten.
-/

namespace CurveArt.Binary64

open Float.Model (Format UnpackedFloat)
open Float.Model.UnpackedFloat

/-- A positive number, the positive zero or positive infinity. -/
def IsUnsigned : UnpackedFloat → Prop
  | .infinity .positive | .zero .positive | .finite .positive .. => True
  | _ => False

/-- The double has no minus sign and is not the value that is no number. -/
def Unsigned (x : Float) : Prop :=
  IsUnsigned (unpacked x)

/-- The kinds of doubles without a minus sign. -/
theorem Unsigned.cases {x : Float} (h : Unsigned x) :
    unpacked x = .zero .positive ∨ unpacked x = .infinity .positive ∨
      ∃ m q hm, unpacked x = .finite .positive m q hm := by
  rw [Unsigned] at h
  cases hx : unpacked x with
  | notANumber =>
    rw [hx] at h
    exact h.elim
  | infinity sign =>
    rw [hx] at h
    cases sign with
    | positive => exact .inr (.inl rfl)
    | negative => exact h.elim
  | zero sign =>
    rw [hx] at h
    cases sign with
    | positive => exact .inl rfl
    | negative => exact h.elim
  | finite sign m q hm =>
    rw [hx] at h
    cases sign with
    | positive => exact .inr (.inr ⟨m, q, hm, rfl⟩)
    | negative => exact h.elim

/-! ## Packing -/

/-- Fields that are not all ones, without the sign bit, are those of a number without a sign. -/
theorem isUnsigned_unpack {field : BitVec 11} (hfield : field ≠ -1#11) (fraction : BitVec 52) :
    IsUnsigned (UnpackedFloat.unpack Format.binary64
      (packComponents Format.binary64 .positive field fraction)) := by
  simp only [UnpackedFloat.unpack, unpackMantissa_packComponents, unpackExponent_packComponents,
    unpackSign_packComponents, UnpackedFloat.Sign.ofBitVec_toBitVec]
  rw [if_neg hfield]
  split
  · split <;> trivial
  · trivial

theorem unsigned_packed {u : UnpackedFloat} (h : IsUnsigned u) : Unsigned (packed u) := by
  show IsUnsigned (UnpackedFloat.unpack Format.binary64 (UnpackedFloat.pack Format.binary64 u))
  cases u with
  | notANumber => exact h.elim
  | infinity sign =>
    cases sign with
    | positive => trivial
    | negative => exact h.elim
  | zero sign =>
    cases sign with
    | positive => trivial
    | negative => exact h.elim
  | finite sign m q hm =>
    cases sign with
    | negative => exact h.elim
    | positive =>
      simp only [UnpackedFloat.pack]
      -- too great an exponent is infinity, and any other leaves a field that is not all ones
      split
      · trivial
      · next hsmall =>
        split
        · refine isUnsigned_unpack ?_ _
          intro hones
          have hfield := congrArg BitVec.toNat hones
          have hall : (-1#11).toNat = 2047 := rfl
          rw [BitVec.toNat_ofNat, hall] at hfield
          have hbits : 2 ^ Format.binary64.exponentBits = 2048 := rfl
          omega
        · exact isUnsigned_unpack (by decide) _

/-! ## Operations -/

theorem isUnsigned_roundWithAccuracy (M : Nat) (e : Int) (accuracy : Accuracy) :
    IsUnsigned (roundWithAccuracy Format.binary64 .positive M e accuracy) := by
  simp only [roundWithAccuracy]
  split <;> trivial

theorem unsigned_mul {x y : Float} {m₁ m₂ : Nat} {e₁ e₂ : Int} {h₁ : 0 < m₁} {h₂ : 0 < m₂}
    (hx : unpacked x = .finite .positive m₁ e₁ h₁) (hy : unpacked y = .finite .positive m₂ e₂ h₂) :
    Unsigned (x * y) := by
  rw [mul_eq_packed, hx, hy]
  exact unsigned_packed (isUnsigned_roundWithAccuracy _ _ _)

theorem unsigned_div {x y : Float} {m₁ m₂ : Nat} {e₁ e₂ : Int} {h₁ : 0 < m₁} {h₂ : 0 < m₂}
    (hx : unpacked x = .finite .positive m₁ e₁ h₁) (hy : unpacked y = .finite .positive m₂ e₂ h₂) :
    Unsigned (x / y) := by
  rw [div_eq_packed, hx, hy]
  exact unsigned_packed (isUnsigned_roundWithAccuracy _ _ _)

theorem isUnsigned_add {m₁ m₂ : Nat} {e₁ e₂ : Int} (h₁ : 0 < m₁) (h₂ : 0 < m₂) :
    IsUnsigned (UnpackedFloat.add Format.binary64 (.finite .positive m₁ e₁ h₁)
      (.finite .positive m₂ e₂ h₂)) := by
  have hpos : 0 < ((decreaseExponent m₁ e₁ (min e₁ e₂)).1 : Int) +
      (decreaseExponent m₂ e₂ (min e₁ e₂)).1 := by
    have hshifted : 0 < m₁ <<< (e₁ - min e₁ e₂).toNat := by
      rw [Nat.shiftLeft_eq]
      positivity
    show 0 < ((m₁ <<< (e₁ - min e₁ e₂).toNat : Nat) : Int) + (_ : Nat)
    omega
  show IsUnsigned (UnpackedFloat.normalize Format.binary64 (_ + _) (min e₁ e₂) .positive)
  rw [UnpackedFloat.normalize]
  split
  · next hneg => exact absurd (compare_lt_iff_lt.1 hneg) (not_lt.2 hpos.le)
  · trivial
  · exact isUnsigned_roundWithAccuracy _ _ _

/-- Sums have no sign where their terms have none. -/
theorem unsigned_add {x y : Float} (hx : Unsigned x) (hy : Unsigned y) : Unsigned (x + y) := by
  show Unsigned (packed (UnpackedFloat.add Format.binary64 (unpacked x) (unpacked y)))
  rcases hx.cases with hx | hx | ⟨m₁, e₁, h₁, hx⟩ <;>
    rcases hy.cases with hy | hy | ⟨m₂, e₂, h₂, hy⟩ <;> rw [hx, hy]
  case inr.inr.inr.inr => exact unsigned_packed (isUnsigned_add h₁ h₂)
  all_goals exact unsigned_packed trivial

theorem isUnsigned_ofScientific (c : Nat) (e : Int) :
    IsUnsigned (UnpackedFloat.ofScientific Format.binary64 c e) := by
  rw [UnpackedFloat.ofScientific]
  split
  · trivial
  · split
    · trivial
    · split
      · trivial
      · split
        · exact isUnsigned_roundWithAccuracy _ _ _
        · exact isUnsigned_roundWithAccuracy _ _ _

/-- The double of a coefficient and a power of ten has no sign. -/
theorem unsigned_ofScientific {c : Nat} (hc : 0 < c) (negative : Bool) (e : Nat) :
    Unsigned (Float.ofScientific c negative e) := by
  rw [Float.ofScientific]
  -- both ways end with one rounding of something positive
  split
  · next hshort =>
    obtain ⟨m₁, e₁, h₁, hx, -, -⟩ := unpacked_ofNat hc hshort.1
    obtain ⟨m₂, e₂, h₂, hy, -⟩ := unpacked_powerOfTen ⟨e, by omega⟩
    cases negative with
    | true => exact unsigned_div hx hy
    | false => exact unsigned_mul hx hy
  · exact unsigned_packed (isUnsigned_ofScientific c _)

end CurveArt.Binary64
