import CurveArt.Color.Text
import Mathlib.Data.List.Basic

/-!
# Colours as text

A text of a colour says its bytes: it is read as the colour whose channels are those bytes over 255.
So only the first reading changes a colour, by moving each channel to the nearest byte; the colour
that is read has the same text and is read back from it as it is.

Main results:

* `Rgba.ofText?_text`: the colour that a colour's text is read as.
* `Rgba.quantized_quantized` and `Rgba.text_quantized`: what is read once stays as it is.
-/

namespace CurveArt

open Text (hexDigit hexValue? hexValue?_hexDigit)

/-! ## Bytes -/

theorem Text.trim_of_forall {text : List Char} (h : ∀ c ∈ text, isBlank c = false) :
    trim text = text := by
  have hdrop {front : List Char} (h : ∀ c ∈ front, isBlank c = false) :
      front.dropWhile isBlank = front := by
    cases front with
    | nil => rfl
    | cons c front =>
      exact List.dropWhile_cons_of_neg (by rw [h c (List.mem_cons_self ..)]; decide)
  unfold trim
  rw [hdrop h, hdrop fun c hc => h c (List.mem_reverse.1 hc), List.reverse_reverse]

/-- A digit is neither a blank nor a plus sign. -/
theorem hexDigit_spec {n : Nat} (h : n < 16) :
    Text.isBlank (hexDigit n) = false ∧ hexDigit n ≠ '+' := by
  have hall : ∀ d : Fin 16, Text.isBlank (hexDigit d) = false ∧ hexDigit d ≠ '+' := by decide
  exact hall ⟨n, h⟩

theorem pairValue?_hexDigit {byte : Nat} (h : byte < 256) :
    pairValue? (hexDigit (byte / 16)) (hexDigit (byte % 16)) = some byte := by
  have hhigh : byte / 16 < 16 := by omega
  have hlow : byte % 16 < 16 := by omega
  unfold pairValue?
  rw [if_neg (hexDigit_spec hhigh).2, hexValue?_hexDigit hhigh, hexValue?_hexDigit hlow]
  exact congrArg some (by omega)

theorem pairedBytes?_flatMap {bytes : List Nat} (h : ∀ byte ∈ bytes, byte < 256) :
    pairedBytes? (bytes.flatMap hexPair) = some bytes := by
  induction bytes with
  | nil => rfl
  | cons byte bytes ih =>
    obtain ⟨hbyte, hbytes⟩ := List.forall_mem_cons.1 h
    show pairedBytes? (hexDigit (byte / 16) :: hexDigit (byte % 16) :: bytes.flatMap hexPair) = _
    unfold pairedBytes?
    rw [pairValue?_hexDigit hbyte, ih hbytes]

theorem length_flatMap_hexPair (bytes : List Nat) :
    (bytes.flatMap hexPair).length = 2 * bytes.length := by
  induction bytes with
  | nil => rfl
  | cons byte bytes ih =>
    rw [List.flatMap_cons, List.length_append, ih, List.length_cons]
    show 2 + 2 * bytes.length = 2 * (bytes.length + 1)
    omega

theorem not_isBlank_of_hexPair {bytes : List Nat} (h : ∀ byte ∈ bytes, byte < 256) {c : Char}
    (hc : c ∈ bytes.flatMap hexPair) : Text.isBlank c = false := by
  obtain ⟨byte, hmem, hc⟩ := List.mem_flatMap.1 hc
  have hbyte := h byte hmem
  rcases List.mem_cons.1 hc with rfl | hc
  · exact (hexDigit_spec (by omega)).1
  · rw [List.mem_singleton.1 hc]
    exact (hexDigit_spec (by omega)).1

namespace Rgba

theorem byteOfChannel_lt (channel : Float) : byteOfChannel channel < 256 := by
  unfold byteOfChannel Binary64.clampedWhole
  split
  · decide
  · split <;> decide
  · dsimp only
    omega

/-- Every byte is the byte of its channel value. -/
theorem byteOfChannel_channelOfByte {byte : Nat} (h : byte < 256) :
    byteOfChannel (channelOfByte byte) = byte := by
  have hall : ∀ b ∈ List.range 256, byteOfChannel (channelOfByte b) = b := by decide +kernel
  exact hall byte (List.mem_range.2 h)

theorem channelOfByte_full : channelOfByte 255 = 1.0 := by decide +kernel

theorem bytes_lt (c : Rgba) : ∀ byte ∈ c.bytes, byte < 256 := by
  simp only [bytes, List.forall_mem_cons, byteOfChannel_lt, List.not_mem_nil, true_and,
    IsEmpty.forall_iff, implies_true]

/-! ## Reading back -/

/-- The colour with each channel moved to the nearest byte. -/
def quantized (c : Rgba) : Rgba :=
  ⟨channelOfByte (byteOfChannel c.r), channelOfByte (byteOfChannel c.g),
    channelOfByte (byteOfChannel c.b), channelOfByte (byteOfChannel c.a)⟩

theorem bytes_quantized (c : Rgba) : c.quantized.bytes = c.bytes := by
  unfold bytes quantized
  simp only [byteOfChannel_channelOfByte, byteOfChannel_lt]

theorem quantized_quantized (c : Rgba) : c.quantized.quantized = c.quantized := by
  unfold quantized
  simp only [byteOfChannel_channelOfByte, byteOfChannel_lt]

/-- Colours that are made of bytes stay as they are. -/
theorem quantized_ofBytes {r g b : Nat} (hr : r < 256) (hg : g < 256) (hb : b < 256) :
    (ofBytes r g b).quantized = ofBytes r g b := by
  have hopaque : byteOfChannel 1.0 = 255 :=
    channelOfByte_full ▸ byteOfChannel_channelOfByte (by decide)
  unfold quantized ofBytes
  rw [byteOfChannel_channelOfByte hr, byteOfChannel_channelOfByte hg,
    byteOfChannel_channelOfByte hb, hopaque, channelOfByte_full]

theorem text_eq (c : Rgba) :
    c.text = String.ofList ('#' ::
      (if byteOfChannel c.a = 255 then c.bytes.take 3 else c.bytes).flatMap hexPair) :=
  rfl

/-- The bytes say the text. -/
theorem text_quantized (c : Rgba) : c.quantized.text = c.text := by
  have hfull : byteOfChannel c.quantized.a = byteOfChannel c.a :=
    byteOfChannel_channelOfByte (byteOfChannel_lt c.a)
  rw [text_eq, text_eq, bytes_quantized, hfull]

/-- Bytes are read from their digits. -/
theorem ofText?_bytes {bytes : List Nat} (hlength : bytes.length = 3 ∨ bytes.length = 4)
    (h : ∀ byte ∈ bytes, byte < 256) :
    ofText? (String.ofList ('#' :: bytes.flatMap hexPair)) = ofByteList? bytes := by
  have hblank : ∀ c ∈ '#' :: bytes.flatMap hexPair, Text.isBlank c = false := by
    intro c hc
    rcases List.mem_cons.1 hc with rfl | hc
    · rfl
    · exact not_isBlank_of_hexPair h hc
  unfold ofText?
  rw [String.toList_ofList, Text.trim_of_forall hblank]
  show ofHex? (bytes.flatMap hexPair) = _
  unfold ofHex?
  rw [length_flatMap_hexPair]
  rcases hlength with hlength | hlength
  · rw [hlength]
    show (pairedBytes? (bytes.flatMap hexPair)).bind ofByteList? = _
    rw [pairedBytes?_flatMap h]
    rfl
  · rw [hlength]
    show (pairedBytes? (bytes.flatMap hexPair)).bind ofByteList? = _
    rw [pairedBytes?_flatMap h]
    rfl

/-- **A colour's text is read as the colour of its bytes.** -/
theorem ofText?_text (c : Rgba) : ofText? c.text = some c.quantized := by
  rw [text_eq]
  split
  · -- an opacity that is not written is full, and so is its byte
    rename_i hfull
    rw [ofText?_bytes (.inl rfl) fun byte hbyte => bytes_lt c byte (List.mem_of_mem_take hbyte)]
    unfold quantized
    rw [hfull, channelOfByte_full]
    rfl
  · rw [ofText?_bytes (.inr rfl) (bytes_lt c)]
    rfl

end Rgba

end CurveArt
