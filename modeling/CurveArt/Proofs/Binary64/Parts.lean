import CurveArt.Binary64.Decoding
import Mathlib

/-!
# The parts of a double

A double is stored as bits and computed with as a sign, a mantissa and an exponent. The mantissas
and exponents that occur are the canonical ones: fifty-three bits, no exponent below the least, and
the leading bit there unless the exponent is the least. Between canonical parts and bits nothing is
lost in either direction, so a double may be named by its parts.

Main results:

* `canonical_of_unpack`, `unpack_pack`: the parts of a double are canonical, and canonical parts are
  those of a double.
* `ofParts_unpack`: a double is the one of its parts.
* `decode_eq`: the bits that `decode` reads are the same parts.
-/

namespace CurveArt.Binary64

open Float.Model (Format UnpackedFloat)
open Float.Model.UnpackedFloat

/-- The mantissas and exponents of the doubles `± m · 2^q` other than zero. -/
structure Canonical (m : Nat) (q : Int) : Prop where
  pos : 0 < m
  lt : m < 2 ^ 53
  least : -1074 ≤ q
  greatest : q ≤ 971
  full : q = -1074 ∨ 2 ^ 52 ≤ m

/-- The kind of a double with its sign, its mantissa and its exponent. -/
def unpacked (x : Float) : UnpackedFloat :=
  x.toModel.unpack

/-- The double of the given kind. -/
def packed (u : UnpackedFloat) : Float :=
  ⟨Float.Model.pack u⟩

/-- The positive double `m · 2^q`. -/
def ofParts (m : Nat) (q : Int) (h : 0 < m) : Float :=
  packed (.finite .positive m q h)

theorem packed_unpacked (x : Float) : packed (unpacked x) = x :=
  Float.ofBits_toBits x

theorem unpacked_injective {x y : Float} (h : unpacked x = unpacked y) : x = y := by
  rw [← packed_unpacked x, h, packed_unpacked]

/-- The leading bit in front of a fraction. -/
theorem toNat_leading (fraction : BitVec 52) :
    (1#1 ++ fraction).toNat = 2 ^ 52 + fraction.toNat := by
  rw [BitVec.toNat_append, ← Nat.shiftLeft_add_eq_or_of_lt fraction.isLt]
  rfl

theorem canonical_of_unpack {b : BitVec Format.binary64.numBits} {sign : UnpackedFloat.Sign}
    {m : Nat} {q : Int} {h : 0 < m}
    (hb : UnpackedFloat.unpack Format.binary64 b = .finite sign m q h) :
    Canonical m q := by
  have hfraction : (unpackMantissa b).toNat < 2 ^ 52 := (unpackMantissa b).isLt
  have hfield : (unpackExponent b).toNat < 2 ^ 11 := (unpackExponent b).isLt
  simp only [UnpackedFloat.unpack] at hb
  split at hb
  · split at hb <;> cases hb
  · next hspecial =>
    have hfield' : (unpackExponent b).toNat ≠ 2047 := by
      intro heq
      exact hspecial (BitVec.eq_of_toNat_eq (by rw [heq]; rfl))
    -- an exponent field of zero stands for the least exponent, without a leading bit
    split at hb
    · split at hb
      · cases hb
      · next hzero _ =>
        injection hb with _ hm hq
        have : (unpackExponent b).toNat = 0 := by rw [hzero]; rfl
        simp only [Format.exponentBias, this] at hq
        constructor <;> omega
    · next hzero =>
      have : (unpackExponent b).toNat ≠ 0 := by
        intro heq
        exact hzero (BitVec.eq_of_toNat_eq (by rw [heq]; rfl))
      injection hb with _ hm hq
      have hlead := toNat_leading (unpackMantissa b)
      simp only [Format.exponentBias] at hq
      constructor <;> omega

/-- Parts with a leading bit are those of the fields that they are packed into. -/
theorem unpack_leading (sign : UnpackedFloat.Sign) {field fraction : Nat} (hpos : 1 ≤ field)
    (hfield : field ≤ 2046) (hfraction : fraction < 2 ^ 52) :
    UnpackedFloat.unpack Format.binary64 (packComponents Format.binary64 sign
        (BitVec.ofNat 11 field) (BitVec.ofNat 52 fraction)) =
      .finite sign (2 ^ 52 + fraction) (field - 1075) (by omega) := by
  have hread : (BitVec.ofNat 11 field).toNat = field := Nat.mod_eq_of_lt (by omega)
  have hspecial : BitVec.ofNat 11 field ≠ -1#11 := by
    intro heq
    rw [heq] at hread
    have : (-1#11).toNat = 2047 := rfl
    omega
  have hzero : BitVec.ofNat 11 field ≠ 0#11 := by
    intro heq
    rw [heq] at hread
    have : (0#11).toNat = 0 := rfl
    omega
  have hmantissa : (1#1 ++ BitVec.ofNat 52 fraction).toNat = 2 ^ 52 + fraction := by
    rw [toNat_leading, BitVec.toNat_ofNat, Nat.mod_eq_of_lt hfraction]
  simp only [UnpackedFloat.unpack, unpackMantissa_packComponents, unpackExponent_packComponents,
    unpackSign_packComponents, UnpackedFloat.Sign.ofBitVec_toBitVec]
  rw [if_neg hspecial, if_neg hzero]
  congr 1
  rw [hread]
  rfl

/-- Parts without a leading bit have the least exponent. -/
theorem unpack_small (sign : UnpackedFloat.Sign) {fraction : Nat} (hpos : 0 < fraction)
    (hfraction : fraction < 2 ^ 52) :
    UnpackedFloat.unpack Format.binary64 (packComponents Format.binary64 sign
        0#11 (BitVec.ofNat 52 fraction)) = .finite sign fraction (-1074) hpos := by
  have hread : (BitVec.ofNat 52 fraction).toNat = fraction := Nat.mod_eq_of_lt hfraction
  have hne : BitVec.ofNat 52 fraction ≠ 0#52 := by
    intro heq
    rw [heq] at hread
    have : (0#52).toNat = 0 := rfl
    omega
  simp only [UnpackedFloat.unpack, unpackMantissa_packComponents, unpackExponent_packComponents,
    unpackSign_packComponents, UnpackedFloat.Sign.ofBitVec_toBitVec]
  rw [if_neg (by decide), if_pos trivial, dif_neg hne]
  congr 1

/-- Packing loses nothing of canonical parts. -/
theorem unpack_pack {m : Nat} {q : Int} (hc : Canonical m q) (sign : UnpackedFloat.Sign)
    (h : 0 < m) :
    UnpackedFloat.unpack Format.binary64 (UnpackedFloat.pack Format.binary64 (.finite sign m q h)) =
      .finite sign m q h := by
  have hlt := hc.lt
  have hleast := hc.least
  have hgreatest := hc.greatest
  have hfield : (q + Format.binary64.exponentBias +
      Format.binary64.mantissaBitsWithoutImplicit).toNat = (q + 1075).toNat := by
    simp only [Format.exponentBias]
    omega
  simp only [UnpackedFloat.pack]
  rw [hfield, if_neg (by simp only [not_le]; omega)]
  -- packing looks for the leading bit, which unpacking puts back
  by_cases hlead : 2 ^ 52 ≤ m
  · have hlog : m.log2 = 52 := (Nat.log2_eq_iff hc.pos.ne').2 ⟨hlead, hlt⟩
    have hfraction : BitVec.ofNat 52 m = BitVec.ofNat 52 (m - 2 ^ 52) :=
      BitVec.eq_of_toNat_eq (by simp only [BitVec.toNat_ofNat]; omega)
    have hpos : 1 ≤ (q + 1075).toNat := by omega
    have hunpack := unpack_leading sign hpos (by omega) (show m - 2 ^ 52 < 2 ^ 52 by omega)
    have hm : 2 ^ 52 + (m - 2 ^ 52) = m := by omega
    have hq : ((q + 1075).toNat : Int) - 1075 = q := by omega
    rw [if_pos (by rw [hlog]; rfl), hfraction, hunpack]
    simp only [hm, hq]
  · have hlog : m.log2 < 52 := (Nat.log2_lt hc.pos.ne').2 (by omega)
    obtain rfl : q = -1074 := hc.full.resolve_right hlead
    rw [if_neg (by simp only [Format.mantissaBits]; omega)]
    exact unpack_small sign h (by omega)

theorem unpacked_packed {m : Nat} {q : Int} (hc : Canonical m q) (sign : UnpackedFloat.Sign)
    (h : 0 < m) :
    unpacked (packed (.finite sign m q h)) = .finite sign m q h :=
  unpack_pack hc sign h

theorem canonical_of_unpacked {x : Float} {sign : UnpackedFloat.Sign} {m : Nat} {q : Int}
    {h : 0 < m} (hx : unpacked x = .finite sign m q h) : Canonical m q :=
  canonical_of_unpack hx

/-! ## Reading the bits -/

/-- Whether a sign is that of a negative double. -/
def isMinus : UnpackedFloat.Sign → Bool
  | .negative => true
  | .positive => false

theorem toNat_field (bits : UInt64) :
    ((bits >>> 52) &&& 0x7ff).toNat = (@unpackExponent Format.binary64 bits.toBitVec).toNat := by
  rw [unpackExponent_def, BitVec.extractLsb'_toNat, UInt64.toNat_and, UInt64.toNat_shiftRight]
  exact Nat.and_two_pow_sub_one_eq_mod _ 11

theorem toNat_fraction (bits : UInt64) :
    (bits &&& 0xfffffffffffff).toNat =
      (@unpackMantissa Format.binary64 bits.toBitVec).toNat := by
  rw [unpackMantissa_def, BitVec.extractLsb'_toNat, UInt64.toNat_and]
  exact Nat.and_two_pow_sub_one_eq_mod _ 52

theorem isMinus_unpackSign (bits : UInt64) :
    (bits >>> 63 == 1) =
      isMinus (UnpackedFloat.Sign.ofBitVec (@unpackSign Format.binary64 bits.toBitVec)) := by
  have hbits := bits.toNat_lt
  have hsign : (@unpackSign Format.binary64 bits.toBitVec).toNat = (bits >>> 63).toNat := by
    rw [unpackSign_def, BitVec.extractLsb'_toNat, UInt64.toNat_shiftRight]
    show bits.toNat >>> 63 % 2 ^ 1 = bits.toNat >>> 63
    rw [Nat.shiftRight_eq_div_pow]
    omega
  -- of sixty-four bits one is left, so there are two words to look at
  have hbit : (bits >>> 63).toNat = 0 ∨ (bits >>> 63).toNat = 1 := by
    rw [UInt64.toNat_shiftRight]
    show bits.toNat >>> 63 = 0 ∨ bits.toNat >>> 63 = 1
    rw [Nat.shiftRight_eq_div_pow]
    omega
  rcases hbit with hbit | hbit
  · rw [hbit] at hsign
    have hclear : @unpackSign Format.binary64 bits.toBitVec = 0#1 := BitVec.eq_of_toNat_eq hsign
    have hword : bits >>> 63 = 0 := UInt64.toNat_inj.1 hbit
    rw [hclear, hword]
    rfl
  · rw [hbit] at hsign
    have hset : @unpackSign Format.binary64 bits.toBitVec = 1#1 := BitVec.eq_of_toNat_eq hsign
    have hword : bits >>> 63 = 1 := UInt64.toNat_inj.1 hbit
    rw [hset, hword]
    rfl

/-- The parts of an unpacked double, in the form in which they are decoded. -/
def partsOf : UnpackedFloat → Parts
  | .notANumber => .notANumber
  | .infinity sign => .infinite (isMinus sign)
  | .zero sign => .finite (isMinus sign) 0 (-1074)
  | .finite sign m q _ => .finite (isMinus sign) m q

/-- The parts that are read from the bits of a double are its unpacked ones. -/
theorem decode_eq (x : Float) : decode x = partsOf (unpacked x) := by
  have hbits : x.toModel.toBits = x.toBits := rfl
  simp only [decode, unpacked, Float.Model.unpack, UnpackedFloat.unpack, hbits,
    isMinus_unpackSign, toNat_field, toNat_fraction]
  -- the same three questions about the two fields, asked of numbers and of words
  have hspecial : ∀ field : BitVec 11, field.toNat = specialField ↔ field = -1#11 :=
    fun field => ⟨fun h => BitVec.eq_of_toNat_eq h, fun h => by rw [h]; rfl⟩
  have hzero : ∀ field : BitVec 11, field.toNat = 0 ↔ field = 0#11 :=
    fun field => ⟨fun h => BitVec.eq_of_toNat_eq h, fun h => by rw [h]; rfl⟩
  have hnone : ∀ fraction : BitVec 52, fraction.toNat = 0 ↔ fraction = 0#52 :=
    fun fraction => ⟨fun h => BitVec.eq_of_toNat_eq h, fun h => by rw [h]; rfl⟩
  split
  · next h =>
    rw [if_pos ((hspecial _).1 h)]
    split
    · next hf =>
      rw [if_pos ((hnone _).1 hf)]
      rfl
    · next hf =>
      rw [if_neg (mt (hnone _).2 hf)]
      rfl
  · next h =>
    rw [if_neg (mt (hspecial _).2 h)]
    split
    · next h0 =>
      rw [if_pos ((hzero _).1 h0)]
      split
      · next hf => rw [partsOf, (hnone _).2 hf]
      · rw [partsOf, h0]
        rfl
    · next h0 =>
      rw [if_neg (mt (hzero _).2 h0), partsOf, toNat_leading]
      rfl

end CurveArt.Binary64
