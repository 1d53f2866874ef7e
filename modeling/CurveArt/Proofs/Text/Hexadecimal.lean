import CurveArt.Text.Hexadecimal
import Mathlib.Data.Fin.Basic

/-!
# Reading hexadecimal digits

A character is read as the value whose digit it is, with letters in either case, and all other
characters are refused. Only ASCII characters are looked at one by one: no digit lies beyond them.

Main result: `hexValue?_eq_some_iff`.
-/

namespace CurveArt.Text

variable {c : Char} {n : Nat}

/-- The character is the digit of the value, in either case. -/
def IsDigitOf (value : Nat) (c : Char) : Prop :=
  value < 16 ∧ c.toLower = hexDigit value

/-- The character is a hexadecimal digit, in either case. -/
def IsHexDigit (c : Char) : Prop :=
  ∃ value, IsDigitOf value c

/-- **What a digit is read as.** -/
theorem hexValue?_eq_some_iff : hexValue? c = some n ↔ IsDigitOf n c := by
  rcases Nat.lt_or_ge c.toNat 128 with hascii | hother
  · have hread : ∀ k : Fin 128, ∀ n ∈ hexValue? (Char.ofNat k),
        n < 16 ∧ (Char.ofNat k).toLower = hexDigit n := by decide +kernel
    have hdigit : ∀ k : Fin 128, ∀ n : Fin 16, (Char.ofNat k).toLower = hexDigit n →
        hexValue? (Char.ofNat k) = some n.val := by decide +kernel
    rw [← Char.ofNat_toNat c]
    exact ⟨hread ⟨c.toNat, hascii⟩ n, fun h => hdigit ⟨c.toNat, hascii⟩ ⟨n, h.1⟩ h.2⟩
  · -- neither side knows characters beyond ASCII
    have hbeyond {last : Char} (hlast : last.toNat < 128) : ¬c ≤ last := fun hle =>
      absurd (UInt32.le_iff_toNat_le.1 (Char.le_def.1 hle)) (by unfold Char.toNat at *; omega)
    have hnone : hexValue? c = none := by
      unfold hexValue?
      rw [if_neg fun h => hbeyond (by decide) h.2, if_neg fun h => hbeyond (by decide) h.2,
        if_neg fun h => hbeyond (by decide) h.2]
    have hlower : c.toLower = c := dif_neg fun h => hbeyond (by decide) h.2
    have hdigits : ∀ n : Fin 16, (hexDigit n).toNat < 128 := by decide
    rw [hnone]
    refine ⟨nofun, fun ⟨hn, h⟩ => ?_⟩
    rw [hlower] at h
    exact absurd (h ▸ hdigits ⟨n, hn⟩) (Nat.not_lt.2 hother)

theorem not_isHexDigit_plus : ¬IsHexDigit '+' := fun ⟨_, h⟩ => by
  have hnone : hexValue? '+' = none := by decide
  rw [← hexValue?_eq_some_iff, hnone] at h
  cases h

end CurveArt.Text
