import CurveArt.Json.Error
import CurveArt.Text.Hexadecimal

/-!
# Text in JSON

A text stands between double quotes. Written texts escape quotes, backslashes and controls and
nothing else; read texts may escape any character, those outside the first plane as a pair of
surrogates.

Main statement: `unquote?_quote` (reading what is written gives the text back).
-/

namespace CurveArt.Json

open Text (hexDigit hexValue? hexValue?_hexDigit)

/-- A character as it stands in a written text. -/
def escapeChar (c : Char) : List Char :=
  match c with
  | '"' => ['\\', '"']
  | '\\' => ['\\', '\\']
  | '\x08' => ['\\', 'b']
  | '\x0c' => ['\\', 'f']
  | '\n' => ['\\', 'n']
  | '\r' => ['\\', 'r']
  | '\t' => ['\\', 't']
  | c =>
    if c.toNat < 0x20 then
      ['\\', 'u', '0', '0', hexDigit (c.toNat / 16), hexDigit (c.toNat % 16)]
    else [c]

/-- The text between quotes. -/
def quote (text : List Char) : List Char :=
  '"' :: text.flatMap escapeChar ++ ['"']

/-! ## Reading -/

/-- The number that four hexadecimal digits write, and what follows them. -/
def codeUnit? : List Char → Option (Nat × List Char)
  | a :: b :: c :: d :: rest =>
    match hexValue? a, hexValue? b, hexValue? c, hexValue? d with
    | some a, some b, some c, some d => some (4096 * a + 256 * b + 16 * c + d, rest)
    | _, _, _, _ => none
  | _ => none

def isHighSurrogate (n : Nat) : Bool :=
  0xd800 ≤ n && n ≤ 0xdbff

def isLowSurrogate (n : Nat) : Bool :=
  0xdc00 ≤ n && n ≤ 0xdfff

/-- The character of an escape by number, after its mark. A high surrogate needs a low one behind
it; a low one alone is nothing. -/
def numbered? (text : List Char) : Option (Char × List Char) :=
  match codeUnit? text with
  | none => none
  | some (n, rest) =>
    if isHighSurrogate n then
      match rest with
      | '\\' :: 'u' :: more =>
        match codeUnit? more with
        | some (m, rest) =>
          if isLowSurrogate m then
            some (Char.ofNat (0x10000 + (n - 0xd800) * 0x400 + (m - 0xdc00)), rest)
          else none
        | none => none
      | _ => none
    else if isLowSurrogate n then none
    else some (Char.ofNat n, rest)

/-- The character that an escape writes, after its backslash. -/
def escaped? : List Char → Option (Char × List Char)
  | '"' :: rest => some ('"', rest)
  | '\\' :: rest => some ('\\', rest)
  | '/' :: rest => some ('/', rest)
  | 'b' :: rest => some ('\x08', rest)
  | 'f' :: rest => some ('\x0c', rest)
  | 'n' :: rest => some ('\n', rest)
  | 'r' :: rest => some ('\r', rest)
  | 't' :: rest => some ('\t', rest)
  | 'u' :: rest => numbered? rest
  | _ => none

theorem codeUnit?_length {text rest : List Char} {n : Nat} (h : codeUnit? text = some (n, rest)) :
    rest.length < text.length := by
  unfold codeUnit? at h
  split at h
  · split at h
    · obtain ⟨-, rfl⟩ := Prod.mk.inj (Option.some.inj h)
      simp only [List.length_cons]
      omega
    · cases h
  · cases h

theorem numbered?_length {text rest : List Char} {c : Char} (h : numbered? text = some (c, rest)) :
    rest.length < text.length := by
  unfold numbered? at h
  split at h
  · cases h
  · rename_i n after hn
    have hfirst := codeUnit?_length hn
    split at h
    · split at h
      · split at h
        · rename_i m last hm
          have hsecond := codeUnit?_length hm
          split at h
          · obtain ⟨-, rfl⟩ := Prod.mk.inj (Option.some.inj h)
            simp only [List.length_cons] at hfirst
            omega
          · cases h
        · cases h
      · cases h
    · split at h
      · cases h
      · obtain ⟨-, rfl⟩ := Prod.mk.inj (Option.some.inj h)
        exact hfirst

theorem escaped?_length {text rest : List Char} {c : Char} (h : escaped? text = some (c, rest)) :
    rest.length < text.length := by
  unfold escaped? at h
  split at h
  case h_9 => exact Nat.lt_succ_of_lt (numbered?_length h)
  case h_10 => cases h
  all_goals
    obtain ⟨-, rfl⟩ := Prod.mk.inj (Option.some.inj h)
    exact Nat.lt_succ_self _

/-- Reads a text up to its closing quote, the opening one being gone. Controls have to be escaped.
-/
def unquote? (text : List Char) : Option (List Char × List Char) :=
  match text with
  | [] => none
  | '"' :: rest => some ([], rest)
  | '\\' :: rest =>
    match _h : escaped? rest with
    | none => none
    | some (c, after) =>
      match unquote? after with
      | some (tail, last) => some (c :: tail, last)
      | none => none
  | c :: rest =>
    if c.toNat < 0x20 then none
    else
      match unquote? rest with
      | some (tail, last) => some (c :: tail, last)
      | none => none
termination_by text.length
decreasing_by
  · exact Nat.lt_succ_of_lt (escaped?_length _h)
  · simp

/-! ## Reading what is written -/

/-- Reading goes on behind an escape. -/
theorem unquote?_backslash {c : Char} {text after : List Char}
    (h : escaped? text = some (c, after)) :
    unquote? ('\\' :: text) = (unquote? after).map fun (tail, last) => (c :: tail, last) := by
  rw [unquote?]
  split
  · simp_all
  · rename_i d last hd
    obtain ⟨rfl, rfl⟩ := Prod.mk.inj (Option.some.inj (hd.symm.trans h))
    cases unquote? last <;> rfl

/-- Reading goes on behind a character that is written as it is. -/
theorem unquote?_plain {c : Char} (hquote : c ≠ '"') (hslash : c ≠ '\\') (hctrl : ¬c.toNat < 0x20)
    (rest : List Char) :
    unquote? (c :: rest) = (unquote? rest).map fun (tail, last) => (c :: tail, last) := by
  rw [unquote?]
  · rw [if_neg hctrl]
    cases unquote? rest <;> rfl
  · exact hquote
  · exact hslash

/-- A control that has no escape of its own is read back from its number. -/
theorem numbered?_control {c : Char} (h : c.toNat < 0x20) (rest : List Char) :
    numbered? ('0' :: '0' :: hexDigit (c.toNat / 16) :: hexDigit (c.toNat % 16) :: rest) =
      some (c, rest) := by
  have hhigh := hexValue?_hexDigit (n := c.toNat / 16) (by omega)
  have hlow := hexValue?_hexDigit (n := c.toNat % 16) (by omega)
  have hunit : codeUnit? ('0' :: '0' :: hexDigit (c.toNat / 16) ::
      hexDigit (c.toNat % 16) :: rest) = some (c.toNat, rest) := by
    simp only [codeUnit?, hhigh, hlow, show hexValue? '0' = some 0 by decide]
    congr 2
    omega
  have hhigh' : isHighSurrogate c.toNat = false := by
    simp only [isHighSurrogate, Bool.and_eq_false_iff, decide_eq_false_iff_not]
    omega
  have hlow' : isLowSurrogate c.toNat = false := by
    simp only [isLowSurrogate, Bool.and_eq_false_iff, decide_eq_false_iff_not]
    omega
  simp [numbered?, hunit, hhigh', hlow']

/-- Reading one written character and what follows it. -/
theorem unquote?_escapeChar (c : Char) (rest : List Char) :
    unquote? (escapeChar c ++ rest) =
      (unquote? rest).map fun (tail, last) => (c :: tail, last) := by
  unfold escapeChar
  split
  case h_8 hquote hslash _ _ _ _ _ =>
    split
    · rename_i hctrl
      exact unquote?_backslash (numbered?_control hctrl rest)
    · rename_i hctrl
      exact unquote?_plain hquote hslash hctrl rest
  all_goals exact unquote?_backslash rfl

/-- Reading a written text gives it back, and leaves what follows it. -/
theorem unquote?_quote (text rest : List Char) :
    unquote? (text.flatMap escapeChar ++ '"' :: rest) = some (text, rest) := by
  induction text with
  | nil => simp [unquote?]
  | cons c text ih =>
    rw [List.flatMap_cons, List.append_assoc, unquote?_escapeChar, ih]
    rfl

end CurveArt.Json
