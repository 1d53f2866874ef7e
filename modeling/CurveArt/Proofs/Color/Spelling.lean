import CurveArt.Proofs.Color.Text
import CurveArt.Proofs.Text.Hexadecimal
import Mathlib.Data.List.Forall2

/-!
# The spelling of colours

A colour is spelled with three, four, six or eight digits after a `#`, or by its name. In the short
forms a digit stands for the byte that it writes twice, in the long ones two digits write a byte. A
byte is a channel in units of `1/255`, and an opacity that is not written is full.

The long forms admit more than that: a pair may also be a plus sign and one digit, as if the sign
were a leading zero. The short forms admit no sign. The bytes of a spelling with digits only are
those that are written, and they outlast any number of texts that are written and read again.

Main results:

* `Rgba.ofText?_spelling`: which texts are colours, and which colours they are.
* `Rgba.ofText?_outlasts`: what is kept when colours are written and read.
-/

namespace CurveArt

open Text (hexDigit hexValue? IsDigitOf IsHexDigit hexValue?_eq_some_iff not_isHexDigit_plus)

variable {α : Type} {byte n : Nat} {bytes : List Nat} {c d : Char} {digits word : List Char}

/-! ## Bytes -/

/-- The digit that, written twice, writes the byte. -/
def Doubled (byte : Nat) (c : Char) : Prop :=
  ∃ value, IsDigitOf value c ∧ byte = 17 * value

/-- Two digits that write the byte. -/
def DigitPair (byte : Nat) (c d : Char) : Prop :=
  ∃ high low, IsDigitOf high c ∧ IsDigitOf low d ∧ byte = 16 * high + low

/-- A plus sign and a digit, which are taken for the byte of the digit. -/
def SignedPair (byte : Nat) (c d : Char) : Prop :=
  c = '+' ∧ IsDigitOf byte d

/-- A pair that is taken for the byte. -/
def AnyPair (byte : Nat) (c d : Char) : Prop :=
  DigitPair byte c d ∨ SignedPair byte c d

/-- The text is made of one pair for each byte. -/
inductive Paired (Pair : Nat → Char → Char → Prop) : List Nat → List Char → Prop where
  | nil : Paired Pair [] []
  | cons {byte : Nat} {bytes : List Nat} {c d : Char} {digits : List Char} :
    Pair byte c d → Paired Pair bytes digits → Paired Pair (byte :: bytes) (c :: d :: digits)

theorem pairValue?_eq_some_iff : pairValue? c d = some byte ↔ AnyPair byte c d := by
  unfold pairValue?
  by_cases hplus : c = '+'
  · subst hplus
    rw [if_pos rfl, hexValue?_eq_some_iff]
    refine ⟨fun h => .inr ⟨rfl, h⟩, ?_⟩
    rintro (⟨high, -, hhigh, -⟩ | ⟨-, h⟩)
    · exact absurd ⟨high, hhigh⟩ not_isHexDigit_plus
    · exact h
  · rw [if_neg hplus]
    constructor
    · intro h
      split at h
      · rename_i high low hhigh hlow
        exact .inl ⟨high, low, hexValue?_eq_some_iff.1 hhigh, hexValue?_eq_some_iff.1 hlow,
          (Option.some.inj h).symm⟩
      · cases h
    · rintro (⟨high, low, hhigh, hlow, rfl⟩ | ⟨h, -⟩)
      · rw [hexValue?_eq_some_iff.2 hhigh, hexValue?_eq_some_iff.2 hlow]
      · exact absurd h hplus

theorem doubledBytes?_eq_some_iff :
    doubledBytes? digits = some bytes ↔ List.Forall₂ Doubled bytes digits := by
  induction digits generalizing bytes with
  | nil => simp [doubledBytes?, eq_comm]
  | cons c digits ih =>
    rw [List.forall₂_cons_right_iff]
    unfold doubledBytes?
    constructor
    · intro h
      split at h
      · rename_i value rest hvalue hrest
        exact ⟨17 * value, rest, ⟨value, hexValue?_eq_some_iff.1 hvalue, rfl⟩, ih.1 hrest,
          (Option.some.inj h).symm⟩
      · cases h
    · rintro ⟨-, rest, ⟨value, hvalue, rfl⟩, hrest, rfl⟩
      rw [hexValue?_eq_some_iff.2 hvalue, ih.2 hrest]

theorem pairedBytes?_eq_some_iff :
    pairedBytes? digits = some bytes ↔ Paired AnyPair bytes digits := by
  fun_induction pairedBytes? digits generalizing bytes with
  | case1 =>
    refine ⟨fun h => Option.some.inj h ▸ .nil, fun h => ?_⟩
    cases h
    rfl
  | case2 => exact ⟨nofun, nofun⟩
  | case3 c d digits byte rest hrest hbyte ih =>
    refine ⟨fun h => Option.some.inj h ▸ .cons (pairValue?_eq_some_iff.1 hbyte) (ih.1 hrest), ?_⟩
    rintro (_ | ⟨hpair, hpairs⟩)
    rw [pairValue?_eq_some_iff.2 hpair] at hbyte
    rw [ih.2 hpairs] at hrest
    rw [Option.some.inj hbyte, Option.some.inj hrest]
  | case4 c d digits hnone ih =>
    refine ⟨nofun, ?_⟩
    rintro (_ | ⟨hpair, hpairs⟩)
    exact absurd (ih.2 hpairs) fun hrest => hnone _ _ (pairValue?_eq_some_iff.2 hpair) hrest

theorem Paired.length {Pair : Nat → Char → Char → Prop} (h : Paired Pair bytes digits) :
    digits.length = 2 * bytes.length := by
  induction h with
  | nil => rfl
  | cons _ _ ih =>
    simp only [List.length_cons, ih]
    omega

theorem exists_doubled (h : ∀ c ∈ digits, IsHexDigit c) :
    ∃ bytes, List.Forall₂ Doubled bytes digits := by
  induction digits with
  | nil => exact ⟨[], .nil⟩
  | cons c digits ih =>
    obtain ⟨⟨value, hvalue⟩, hdigits⟩ := List.forall_mem_cons.1 h
    obtain ⟨bytes, hbytes⟩ := ih hdigits
    exact ⟨17 * value :: bytes, .cons ⟨value, hvalue, rfl⟩ hbytes⟩

theorem exists_paired {count : Nat} (hlength : digits.length = 2 * count)
    (h : ∀ c ∈ digits, IsHexDigit c) :
    ∃ bytes : List Nat, bytes.length = count ∧ Paired DigitPair bytes digits := by
  induction count generalizing digits with
  | zero =>
    obtain rfl := List.length_eq_zero_iff.1 hlength
    exact ⟨[], rfl, .nil⟩
  | succ count ih =>
    match digits, hlength with
    | c :: d :: digits, hlength =>
      simp only [List.forall_mem_cons] at h
      obtain ⟨⟨high, hhigh⟩, ⟨low, hlow⟩, hdigits⟩ := h
      obtain ⟨bytes, hcount, hbytes⟩ := ih (by simp only [List.length_cons] at hlength; omega) hdigits
      exact ⟨(16 * high + low) :: bytes, by rw [List.length_cons, hcount],
        .cons ⟨high, low, hhigh, hlow, rfl⟩ hbytes⟩

theorem Paired.any (h : Paired DigitPair bytes digits) : Paired AnyPair bytes digits := by
  induction h with
  | nil => exact .nil
  | cons hpair _ ih => exact .cons (.inl hpair) ih

/-- Pairs without a sign are made of digits. -/
theorem Paired.unsigned (h : Paired AnyPair bytes digits) (hsign : '+' ∉ digits) :
    Paired DigitPair bytes digits := by
  induction h with
  | nil => exact .nil
  | cons hpair _ ih =>
    simp only [List.mem_cons, not_or] at hsign
    exact .cons (hpair.resolve_right fun h => hsign.1 h.1.symm) (ih hsign.2.2)

theorem Paired.isHexDigit (h : Paired DigitPair bytes digits) : ∀ c ∈ digits, IsHexDigit c := by
  induction h with
  | nil => exact fun c hc => absurd hc List.not_mem_nil
  | cons hpair _ ih =>
    obtain ⟨high, low, hhigh, hlow, -⟩ := hpair
    simp only [List.forall_mem_cons]
    exact ⟨⟨high, hhigh⟩, ⟨low, hlow⟩, ih⟩

namespace Rgba

/-- The characters behind a `#` write the bytes. The pairs of the long forms are of the given
kind. -/
inductive HexBytes (Pair : Nat → Char → Char → Prop) (digits : List Char) (bytes : List Nat) :
    Prop where
  | short (hlength : bytes.length = 3 ∨ bytes.length = 4) (h : List.Forall₂ Doubled bytes digits)
  | long (hlength : bytes.length = 3 ∨ bytes.length = 4) (h : Paired Pair bytes digits)

/-- The channel of a byte, which is full where there is none. -/
def channelAt (bytes : List Nat) (i : Nat) : Float :=
  bytes[i]?.elim 1.0 fun byte => Binary64.ofCount byte / 255.0

/-- The colour of three or four bytes. -/
def ofHexBytes (bytes : List Nat) : Rgba :=
  ⟨channelAt bytes 0, channelAt bytes 1, channelAt bytes 2, channelAt bytes 3⟩

/-- The text, without blanks around it, spells the colour. -/
inductive Spells (word : List Char) (color : Rgba) : Prop where
  | hex {digits : List Char} {bytes : List Nat} (h : HexBytes AnyPair digits bytes)
    (hword : word = '#' :: digits) (hcolor : color = ofHexBytes bytes)
  | name {name : String} (h : (name, color) ∈ named) (hword : word.map Char.toLower = name.toList)

theorem ofByteList?_eq_some_iff {color : Rgba} :
    ofByteList? bytes = some color ↔
      (bytes.length = 3 ∨ bytes.length = 4) ∧ color = ofHexBytes bytes := by
  constructor
  · intro h
    unfold ofByteList? at h
    split at h
    · exact ⟨.inl rfl, (Option.some.inj h).symm⟩
    · exact ⟨.inr rfl, (Option.some.inj h).symm⟩
    · cases h
  · rintro ⟨hlength | hlength, rfl⟩
    · obtain ⟨r, g, b, rfl⟩ := List.length_eq_three.1 hlength
      rfl
    · match bytes, hlength with
      | [r, g, b, a], _ => rfl

theorem ofHex?_eq_some_iff {color : Rgba} :
    ofHex? digits = some color ↔ ∃ bytes, HexBytes AnyPair digits bytes ∧
      color = ofHexBytes bytes := by
  constructor
  · intro h
    unfold ofHex? at h
    split at h
    case h_5 => cases h
    case h_1 | h_2 =>
      obtain ⟨bytes, hbytes, hcolor⟩ := Option.bind_eq_some_iff.1 h
      obtain ⟨hlength, rfl⟩ := ofByteList?_eq_some_iff.1 hcolor
      exact ⟨bytes, .short hlength (doubledBytes?_eq_some_iff.1 hbytes), rfl⟩
    case h_3 | h_4 =>
      obtain ⟨bytes, hbytes, hcolor⟩ := Option.bind_eq_some_iff.1 h
      obtain ⟨hlength, rfl⟩ := ofByteList?_eq_some_iff.1 hcolor
      exact ⟨bytes, .long hlength (pairedBytes?_eq_some_iff.1 hbytes), rfl⟩
  · rintro ⟨bytes, ⟨hlength, h⟩ | ⟨hlength, h⟩, rfl⟩
    · have hdigits := h.length_eq
      have hcolor := ofByteList?_eq_some_iff.2 ⟨hlength, rfl⟩
      unfold ofHex?
      rw [← hdigits, doubledBytes?_eq_some_iff.2 h, Option.bind_some, hcolor]
      rcases hlength with hlength | hlength <;> (rw [hlength]; rfl)
    · have hdigits := h.length
      have hcolor := ofByteList?_eq_some_iff.2 ⟨hlength, rfl⟩
      unfold ofHex?
      rw [hdigits, pairedBytes?_eq_some_iff.2 h, Option.bind_some, hcolor]
      rcases hlength with hlength | hlength <;> (rw [hlength]; rfl)

/-! ## Names -/

/-- What a search by name finds where no name comes twice. -/
theorem find?_name {entries : List (String × α)} (h : (entries.map Prod.fst).Nodup) {name : String}
    {a : α} :
    (entries.find? fun entry => entry.1 == name).map Prod.snd = some a ↔ (name, a) ∈ entries := by
  induction entries with
  | nil => simp
  | cons entry entries ih =>
    obtain ⟨hnew, hnodup⟩ := List.nodup_cons.1 h
    rw [List.mem_cons]
    by_cases heq : entry.1 = name
    · -- the search ends here, and the name does not come again
      rw [List.find?_cons_of_pos (by rw [heq, beq_self_eq_true])]
      refine ⟨fun ha => .inl (Prod.ext heq.symm (Option.some.inj ha).symm), ?_⟩
      rintro (rfl | hmem)
      · rfl
      · exact absurd (List.mem_map_of_mem hmem) (heq ▸ hnew)
    · rw [List.find?_cons_of_neg (by rwa [beq_iff_eq]), ih hnodup]
      exact ⟨.inr, fun ha => ha.resolve_left fun hentry => heq (hentry ▸ rfl)⟩

theorem ofName?_eq_some_iff {name : String} {color : Rgba} :
    ofName? name = some color ↔ (name, color) ∈ named :=
  find?_name (by decide)

/-- No name begins as the other spellings do. -/
theorem head?_name_ne {name : String} {color : Rgba} (h : (name, color) ∈ named) :
    name.toList.head? ≠ some '#' := by
  have hall : ∀ name ∈ named.map Prod.fst, name.toList.head? ≠ some '#' := by decide +kernel
  exact hall name (List.mem_map_of_mem h)

theorem ofText?_eq_some_iff {text : String} {color : Rgba} :
    ofText? text = some color ↔ Spells (Text.trim text.toList) color := by
  unfold ofText?
  split
  · -- behind a `#` there is no name
    rename_i digits hword
    rw [hword, ofHex?_eq_some_iff]
    refine ⟨fun ⟨bytes, h, hcolor⟩ => .hex h rfl hcolor, ?_⟩
    rintro (⟨h, hsame, hcolor⟩ | ⟨h, hsame⟩)
    · obtain rfl := (List.cons.inj hsame).2
      exact ⟨_, h, hcolor⟩
    · refine absurd ?_ (head?_name_ne h)
      rw [← hsame]
      rfl
  · -- without a `#` there are no digits
    rename_i hword
    rw [ofName?_eq_some_iff]
    refine ⟨fun h => .name h (by rw [String.toList_ofList]), ?_⟩
    rintro (⟨-, hsame, -⟩ | ⟨h, hsame⟩)
    · exact absurd hsame (hword _)
    · rwa [hsame, String.ofList_toList]

/-! ## Forms -/

/-- The text is a `#` with three, four, six or eight digits behind it. -/
def InHexForm (word : List Char) : Prop :=
  ∃ digits, word = '#' :: digits ∧ digits.length ∈ [3, 4, 6, 8] ∧ ∀ c ∈ digits, IsHexDigit c

/-- The text is the name of a colour, in any case. -/
def IsName (word : List Char) : Prop :=
  ∃ entry ∈ named, word.map Char.toLower = entry.1.toList

/-- The text is a `#` with three or four pairs behind it, and there is a plus sign among them. -/
def InSignedForm (word : List Char) : Prop :=
  ∃ digits bytes, word = '#' :: digits ∧ (bytes.length = 3 ∨ bytes.length = 4) ∧
    Paired AnyPair bytes digits ∧ '+' ∈ digits

theorem HexBytes.any (h : HexBytes DigitPair digits bytes) : HexBytes AnyPair digits bytes := by
  cases h with
  | short hlength h => exact .short hlength h
  | long hlength h => exact .long hlength h.any

/-- Digits alone write bytes exactly if they are as many as one of the forms has. -/
theorem exists_hexBytes_iff :
    (∃ bytes, HexBytes DigitPair digits bytes) ↔
      digits.length ∈ [3, 4, 6, 8] ∧ ∀ c ∈ digits, IsHexDigit c := by
  constructor
  · rintro ⟨bytes, ⟨hlength, h⟩ | ⟨hlength, h⟩⟩
    · refine ⟨by have := h.length_eq; simp only [List.mem_cons]; omega, fun c hc => ?_⟩
      obtain ⟨i, hi, rfl⟩ := List.mem_iff_getElem.1 hc
      obtain ⟨value, hvalue, -⟩ := (List.forall₂_iff_get.1 h).2 i (h.length_eq ▸ hi) hi
      exact ⟨value, hvalue⟩
    · exact ⟨by have := h.length; simp only [List.mem_cons]; omega, h.isHexDigit⟩
  · rintro ⟨hlength, h⟩
    simp only [List.mem_cons, List.not_mem_nil, or_false] at hlength
    -- three or four digits stand for a byte each, six or eight make pairs
    rcases (by omega : (digits.length = 3 ∨ digits.length = 4) ∨ digits.length = 2 * 3 ∨
      digits.length = 2 * 4) with hshort | hlong | hlong
    · obtain ⟨bytes, hbytes⟩ := exists_doubled h
      exact ⟨bytes, .short (by rw [hbytes.length_eq]; exact hshort) hbytes⟩
    · obtain ⟨bytes, hcount, hbytes⟩ := exists_paired hlong h
      exact ⟨bytes, .long (.inl hcount) hbytes⟩
    · obtain ⟨bytes, hcount, hbytes⟩ := exists_paired hlong h
      exact ⟨bytes, .long (.inr hcount) hbytes⟩

/-- **The texts that are colours**, and the colours that they are. A text is a colour if it is in
one of the hexadecimal forms or a name, without the blanks around it, and also if a pair of the long
forms has a plus sign for its first digit. -/
theorem ofText?_spelling (text : String) :
    (∀ color, ofText? text = some color ↔ Spells (Text.trim text.toList) color) ∧
      ((ofText? text).isSome ↔
        InHexForm (Text.trim text.toList) ∨ IsName (Text.trim text.toList) ∨
          InSignedForm (Text.trim text.toList)) := by
  refine ⟨fun color => ofText?_eq_some_iff, ?_⟩
  rw [Option.isSome_iff_exists]
  simp only [ofText?_eq_some_iff]
  constructor
  · rintro ⟨color, @⟨digits, bytes, ⟨hlength, h⟩ | ⟨hlength, h⟩, hword, -⟩ | ⟨h, hword⟩⟩
    · exact .inl ⟨_, hword, exists_hexBytes_iff.1 ⟨_, .short hlength h⟩⟩
    · -- without a sign the long forms are made of digits
      by_cases hsign : '+' ∈ digits
      · exact .inr (.inr ⟨_, _, hword, hlength, h, hsign⟩)
      · exact .inl ⟨_, hword, exists_hexBytes_iff.1 ⟨_, .long hlength (h.unsigned hsign)⟩⟩
    · exact .inr (.inl ⟨_, h, hword⟩)
  · rintro (⟨digits, hword, h⟩ | ⟨entry, h, hword⟩ | ⟨digits, bytes, hword, hlength, h, -⟩)
    · obtain ⟨bytes, hbytes⟩ := exists_hexBytes_iff.2 h
      exact ⟨_, .hex hbytes.any hword rfl⟩
    · exact ⟨entry.2, .name h hword⟩
    · exact ⟨_, .hex (.long hlength h) hword rfl⟩

/-- Three signs are read as the digits behind them, though the text is in no hexadecimal form and no
name. -/
theorem ofText?_signs :
    ofText? "#+f+f+f" = some (ofBytes 15 15 15) ∧
      ¬(InHexForm (Text.trim "#+f+f+f".toList) ∨ IsName (Text.trim "#+f+f+f".toList)) := by
  have hword : Text.trim "#+f+f+f".toList = ['#', '+', 'f', '+', 'f', '+', 'f'] := by decide
  refine ⟨by rfl, ?_⟩
  rw [hword]
  rintro (⟨digits, hdigits, -, h⟩ | ⟨entry, hentry, hname⟩)
  · obtain rfl := (List.cons.inj hdigits).2
    exact not_isHexDigit_plus (h '+' List.mem_cons_self)
  · refine head?_name_ne hentry ?_
    rw [← hname]
    rfl

/-! ## There and back -/

theorem HexBytes.lt (h : HexBytes DigitPair digits bytes) : ∀ byte ∈ bytes, byte < 256 := by
  rcases h with ⟨-, h⟩ | ⟨-, h⟩
  · induction h with
    | nil => exact fun byte hbyte => absurd hbyte List.not_mem_nil
    | cons hbyte _ ih =>
      obtain ⟨value, ⟨hvalue, -⟩, rfl⟩ := hbyte
      exact List.forall_mem_cons.2 ⟨by omega, ih⟩
  · induction h with
    | nil => exact fun byte hbyte => absurd hbyte List.not_mem_nil
    | cons hpair _ ih =>
      obtain ⟨high, low, ⟨hhigh, -⟩, ⟨hlow, -⟩, rfl⟩ := hpair
      exact List.forall_mem_cons.2 ⟨by omega, ih⟩

/-- The bytes of a colour are those that it was given. -/
theorem bytes_ofHexBytes (hlength : bytes.length = 3 ∨ bytes.length = 4)
    (h : ∀ byte ∈ bytes, byte < 256) : (ofHexBytes bytes).bytes = (bytes ++ [255]).take 4 := by
  have hchannel {byte : Nat} (hbyte : byte < 256) :
      byteOfChannel (Binary64.ofCount byte / 255.0) = byte := byteOfChannel_channelOfByte hbyte
  have hfull : byteOfChannel 1.0 = 255 := by decide +kernel
  rcases hlength with hlength | hlength
  · obtain ⟨r, g, b, rfl⟩ := List.length_eq_three.1 hlength
    simp only [List.forall_mem_cons] at h
    simp [Rgba.bytes, ofHexBytes, channelAt, hchannel, hfull, h]
  · obtain ⟨r, rest, rfl⟩ := List.exists_cons_of_length_eq_add_one hlength
    obtain ⟨g, b, a, rfl⟩ := List.length_eq_three.1 (Nat.succ.inj hlength)
    simp only [List.forall_mem_cons] at h
    simp [Rgba.bytes, ofHexBytes, channelAt, hchannel, h]

/-- The colour after it has been written and read so many times. -/
def outlasting : Nat → Rgba → Option Rgba
  | 0, color => some color
  | times + 1, color => (ofText? color.text).bind (outlasting times)

theorem outlasting_quantized (times : Nat) (color : Rgba) :
    outlasting (times + 1) color = some color.quantized := by
  induction times generalizing color with
  | zero => rw [outlasting, ofText?_text]; rfl
  | succ times ih => rw [outlasting, ofText?_text, Option.bind_some, ih, quantized_quantized]

/-- **What outlasts writing and reading.** The text of a colour is a colour with the same bytes and
the same text, and is the last one to change. The bytes are kept however often that is done. The
bytes that digits write are those of the colour that they are read as. -/
theorem ofText?_outlasts :
    (∀ color : Rgba, ∃ read, ofText? color.text = some read ∧ read.bytes = color.bytes ∧
        read.text = color.text ∧ ofText? read.text = some read) ∧
      (∀ (color : Rgba) (times : Nat), ∃ last, outlasting times color = some last ∧
        last.bytes = color.bytes ∧ last.text = color.text) ∧
      ∀ (text : String) (digits : List Char) (bytes : List Nat),
        Text.trim text.toList = '#' :: digits → HexBytes DigitPair digits bytes →
          ∃ color, ofText? text = some color ∧ color.bytes = (bytes ++ [255]).take 4 := by
  refine ⟨fun color => ?_, fun color times => ?_, fun text digits bytes hword h => ?_⟩
  · refine ⟨color.quantized, color.ofText?_text, color.bytes_quantized, color.text_quantized, ?_⟩
    rw [text_quantized]
    exact color.ofText?_text
  · cases times with
    | zero => exact ⟨color, rfl, rfl, rfl⟩
    | succ times =>
      exact ⟨color.quantized, outlasting_quantized times color, color.bytes_quantized,
        color.text_quantized⟩
  · have hlength : bytes.length = 3 ∨ bytes.length = 4 := by
      rcases h with ⟨hlength, -⟩ | ⟨hlength, -⟩
      · exact hlength
      · exact hlength
    exact ⟨ofHexBytes bytes, ofText?_eq_some_iff.2 (.hex h.any hword rfl),
      bytes_ofHexBytes hlength h.lt⟩

/-- Each digit of a short form is written twice. -/
theorem ofText?_outlasts_short :
    ∃ color, ofText? "#f008" = some color ∧ color.bytes = [255, 0, 0, 136] := by
  obtain ⟨-, -, hwritten⟩ := ofText?_outlasts
  have hzero : Doubled 0 '0' := ⟨0, ⟨by decide, by decide⟩, rfl⟩
  have hbytes : HexBytes DigitPair ['f', '0', '0', '8'] [255, 0, 0, 136] :=
    .short (by decide) (.cons ⟨15, ⟨by decide, by decide⟩, rfl⟩ (.cons hzero (.cons hzero
      (.cons ⟨8, ⟨by decide, by decide⟩, rfl⟩ .nil))))
  exact hwritten "#f008" _ _ (by decide) hbytes

end Rgba

end CurveArt
