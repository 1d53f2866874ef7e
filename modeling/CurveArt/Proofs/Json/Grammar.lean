import CurveArt.Proofs.Json.Values
import CurveArt.Proofs.Text.Hexadecimal
import Mathlib.Data.List.Forall2

/-!
# The grammar of JSON

A value is one of three words, a number, a string, a sequence of values or a map from strings to
values, with blanks around each part of these two. `IsValue` derives the texts of values, without
blanks around them. A string may escape any character and even write half of a surrogate pair, which
then stands for nothing: `StandsFor` is the meaning of those strings that have one.

Where a string or a number ends is known from its text, but a number ends only where something else
begins. So what either of them is read as does not depend on what follows.

Main results:

* `unquote?_of_standsFor` and `IsContent.standsFor_or_isRefused`: reading strings.
* `IsNumber.isRead`: reading numbers.
* `IsValue.exists_shown`: what a value begins with tells its kind.
-/

namespace CurveArt.Json

open Decimal (Halts halts_nil halts_cons takeWhile_append_halts dropWhile_append_halts
  digitsValue IsDigits IsMark IsSign IsExponent exists_digit)
open Text (hexValue? IsDigitOf IsHexDigit hexValue?_eq_some_iff)

variable {α : Type} {text raw rest gap : List Char} {c : Char}

/-! ## Strings -/

/-- The letters of escapes with the characters that they stand for. -/
def escapes : List (Char × Char) :=
  [('"', '"'), ('\\', '\\'), ('/', '/'), ('b', '\x08'), ('f', '\x0c'), ('n', '\n'), ('r', '\r'),
    ('t', '\t')]

/-- Four digits that write the number. -/
inductive CodeUnit : Nat → List Char → Prop where
  | mk {a b c d : Nat} {p q r s : Char} (ha : IsDigitOf a p) (hb : IsDigitOf b q)
    (hc : IsDigitOf c r) (hd : IsDigitOf d s) :
    CodeUnit (4096 * a + 256 * b + 16 * c + d) [p, q, r, s]

/-- What may stand between the quotes of a string. -/
inductive IsContent : List Char → Prop where
  | nil : IsContent []
  | plain {c : Char} {text : List Char} (hquote : c ≠ '"') (hslash : c ≠ '\\')
    (hcontrol : 0x20 ≤ c.toNat) (h : IsContent text) : IsContent (c :: text)
  | escape {entry : Char × Char} {text : List Char} (hentry : entry ∈ escapes)
    (h : IsContent text) : IsContent ('\\' :: entry.1 :: text)
  | numbered {n : Nat} {digits text : List Char} (hdigits : CodeUnit n digits)
    (h : IsContent text) : IsContent ('\\' :: 'u' :: (digits ++ text))

/-- The number of half a surrogate pair. -/
def IsSurrogate (n : Nat) : Prop :=
  0xd800 ≤ n ∧ n ≤ 0xdfff

/-- What stands between the quotes stands for the characters. -/
inductive StandsFor : List Char → List Char → Prop where
  | nil : StandsFor [] []
  | plain {c : Char} {raw text : List Char} (hquote : c ≠ '"') (hslash : c ≠ '\\')
    (hcontrol : 0x20 ≤ c.toNat) (h : StandsFor raw text) : StandsFor (c :: raw) (c :: text)
  | escape {entry : Char × Char} {raw text : List Char} (hentry : entry ∈ escapes)
    (h : StandsFor raw text) : StandsFor ('\\' :: entry.1 :: raw) (entry.2 :: text)
  | numbered {n : Nat} {digits raw text : List Char} (hdigits : CodeUnit n digits)
    (hn : ¬IsSurrogate n) (h : StandsFor raw text) :
    StandsFor ('\\' :: 'u' :: (digits ++ raw)) (Char.ofNat n :: text)
  | pair {high low : Nat} {digits digits' raw text : List Char} (hdigits : CodeUnit high digits)
    (hhigh : 0xd800 ≤ high ∧ high ≤ 0xdbff) (hdigits' : CodeUnit low digits')
    (hlow : 0xdc00 ≤ low ∧ low ≤ 0xdfff) (h : StandsFor raw text) :
    StandsFor ('\\' :: 'u' :: (digits ++ '\\' :: 'u' :: (digits' ++ raw)))
      (Char.ofNat (0x10000 + (high - 0xd800) * 0x400 + (low - 0xdc00)) :: text)

theorem CodeUnit.codeUnit?_append {n : Nat} (h : CodeUnit n text) (rest : List Char) :
    codeUnit? (text ++ rest) = some (n, rest) := by
  cases h with
  | mk ha hb hc hd =>
    rw [← hexValue?_eq_some_iff] at ha hb hc hd
    simp only [List.cons_append, List.nil_append, codeUnit?, ha, hb, hc, hd]

theorem escaped?_of_mem {entry : Char × Char} (h : entry ∈ escapes) (rest : List Char) :
    escaped? (entry.1 :: rest) = some (entry.2, rest) := by
  simp only [escapes, List.mem_cons, List.not_mem_nil, or_false] at h
  rcases h with rfl | rfl | rfl | rfl | rfl | rfl | rfl | rfl <;> rfl

theorem ne_of_mem_escapes {entry : Char × Char} (h : entry ∈ escapes) : entry.1 ≠ 'u' := by
  have hall : ∀ entry ∈ escapes, entry.1 ≠ 'u' := by decide
  exact hall entry h

theorem numbered?_of_scalar {n : Nat} (h : CodeUnit n text) (hn : ¬IsSurrogate n)
    (rest : List Char) : numbered? (text ++ rest) = some (Char.ofNat n, rest) := by
  have hhigh : isHighSurrogate n = false := by
    unfold IsSurrogate at hn
    simp only [isHighSurrogate, Bool.and_eq_false_iff, decide_eq_false_iff_not]
    omega
  have hlow : isLowSurrogate n = false := by
    unfold IsSurrogate at hn
    simp only [isLowSurrogate, Bool.and_eq_false_iff, decide_eq_false_iff_not]
    omega
  unfold numbered?
  rw [h.codeUnit?_append]
  simp only [hhigh, hlow, Bool.false_eq_true, if_false]

theorem numbered?_of_low {n : Nat} (h : CodeUnit n text) (hn : 0xdc00 ≤ n ∧ n ≤ 0xdfff)
    (rest : List Char) : numbered? (text ++ rest) = none := by
  have hhigh : isHighSurrogate n = false := by
    simp only [isHighSurrogate, Bool.and_eq_false_iff, decide_eq_false_iff_not]
    omega
  have hlow : isLowSurrogate n = true := by
    simp only [isLowSurrogate, Bool.and_eq_true, decide_eq_true_eq]
    exact hn
  unfold numbered?
  rw [h.codeUnit?_append]
  simp only [hhigh, hlow, Bool.false_eq_true, if_false, if_true]

/-- The character of a surrogate pair, from behind its first half. -/
def joined? (high : Nat) : List Char → Option (Char × List Char)
  | '\\' :: 'u' :: more =>
    match codeUnit? more with
    | some (low, rest) =>
      if isLowSurrogate low then
        some (Char.ofNat (0x10000 + (high - 0xd800) * 0x400 + (low - 0xdc00)), rest)
      else none
    | none => none
  | _ => none

theorem numbered?_of_high {n : Nat} (h : CodeUnit n text) (hn : 0xd800 ≤ n ∧ n ≤ 0xdbff)
    (rest : List Char) : numbered? (text ++ rest) = joined? n rest := by
  have hhigh : isHighSurrogate n = true := by
    simp only [isHighSurrogate, Bool.and_eq_true, decide_eq_true_eq]
    exact hn
  unfold numbered?
  rw [h.codeUnit?_append]
  simp only [hhigh, if_true]
  rfl

theorem joined?_of_low {high low : Nat} (h : CodeUnit low text)
    (hlow : 0xdc00 ≤ low ∧ low ≤ 0xdfff) (rest : List Char) :
    joined? high ('\\' :: 'u' :: (text ++ rest)) =
      some (Char.ofNat (0x10000 + (high - 0xd800) * 0x400 + (low - 0xdc00)), rest) := by
  have hlow : isLowSurrogate low = true := by
    simp only [isLowSurrogate, Bool.and_eq_true, decide_eq_true_eq]
    exact hlow
  unfold joined?
  simp only [h.codeUnit?_append, hlow, if_true]

theorem joined?_of_not_low {high n : Nat} (h : CodeUnit n text)
    (hlow : ¬(0xdc00 ≤ n ∧ n ≤ 0xdfff)) (rest : List Char) :
    joined? high ('\\' :: 'u' :: (text ++ rest)) = none := by
  have hlow : isLowSurrogate n = false := by
    rw [Bool.eq_false_iff]
    simp only [isLowSurrogate, ne_eq, Bool.and_eq_true, decide_eq_true_eq]
    exact hlow
  unfold joined?
  simp only [h.codeUnit?_append, hlow, Bool.false_eq_true, if_false]

theorem joined?_of_ne {high : Nat} (hc : c ≠ '\\') (rest : List Char) :
    joined? high (c :: rest) = none := by
  unfold joined?
  split
  · rename_i heq
    exact absurd (List.cons.inj heq).1 hc
  · rfl

theorem joined?_of_letter {high : Nat} (hc : c ≠ 'u') (rest : List Char) :
    joined? high ('\\' :: c :: rest) = none := by
  unfold joined?
  split
  · rename_i heq
    exact absurd (List.cons.inj (List.cons.inj heq).2).1 hc
  · rfl

/-- What is escaped by nothing is no string. -/
theorem unquote?_backslash_none (h : escaped? text = none) : unquote? ('\\' :: text) = none := by
  rw [unquote?]
  split
  · rfl
  · simp_all

/-- **A string is read as what it stands for.** -/
theorem unquote?_of_standsFor (h : StandsFor raw text) (rest : List Char) :
    unquote? (raw ++ '"' :: rest) = some (text, rest) := by
  induction h with
  | nil => simp [unquote?]
  | plain hquote hslash hcontrol _ ih =>
    rw [List.cons_append, unquote?_plain hquote hslash (Nat.not_lt.2 hcontrol), ih]
    rfl
  | escape hentry _ ih =>
    rw [List.cons_append, List.cons_append, unquote?_backslash (escaped?_of_mem hentry _), ih]
    rfl
  | numbered hdigits hn _ ih =>
    rw [List.cons_append, List.cons_append, List.append_assoc]
    have hescaped (rest : List Char) : escaped? ('u' :: _) = _ :=
      numbered?_of_scalar hdigits hn rest
    rw [unquote?_backslash (hescaped _), ih]
    rfl
  | @pair high low digits digits' raw text hdigits hhigh hdigits' hlow _ ih =>
    have hescaped : escaped? ('u' :: (digits ++ '\\' :: 'u' :: (digits' ++ (raw ++ '"' :: rest)))) =
        some (Char.ofNat (0x10000 + (high - 0xd800) * 0x400 + (low - 0xdc00)),
          raw ++ '"' :: rest) :=
      (numbered?_of_high hdigits hhigh _).trans (joined?_of_low hdigits' hlow _)
    simp only [List.cons_append, List.append_assoc]
    rw [unquote?_backslash hescaped, ih]
    rfl

/-- A string that stands for nothing is refused, whatever follows it. -/
def IsRefused (raw : List Char) : Prop :=
  ∀ rest, unquote? (raw ++ '"' :: rest) = none

theorem IsRefused.plain (h : IsRefused raw) (hquote : c ≠ '"') (hslash : c ≠ '\\')
    (hcontrol : 0x20 ≤ c.toNat) : IsRefused (c :: raw) := by
  intro rest
  rw [List.cons_append, unquote?_plain hquote hslash (Nat.not_lt.2 hcontrol), h rest]
  rfl

theorem IsRefused.escaped {after : List Char} (h : IsRefused after)
    (hescaped : ∀ rest, escaped? (raw ++ '"' :: rest) = some (c, after ++ '"' :: rest)) :
    IsRefused ('\\' :: raw) := by
  intro rest
  rw [List.cons_append, unquote?_backslash (hescaped rest), h rest]
  rfl

theorem isRefused_of_escaped? (h : ∀ rest, escaped? (raw ++ '"' :: rest) = none) :
    IsRefused ('\\' :: raw) := by
  intro rest
  rw [List.cons_append, unquote?_backslash_none (h rest)]

/-- An escape by number is refused for half of a surrogate pair without the other half. -/
theorem isRefused_of_numbered? {digits : List Char}
    (h : ∀ rest, numbered? (digits ++ (raw ++ '"' :: rest)) = none) :
    IsRefused ('\\' :: 'u' :: (digits ++ raw)) :=
  isRefused_of_escaped? fun rest => by
    rw [List.cons_append, List.append_assoc]
    exact h rest

/-- The first half of a surrogate pair asks for an escape by number that is the second half. -/
theorem standsFor_or_isRefused_high {n : Nat} {digits : List Char} (hdigits : CodeUnit n digits)
    (hhigh : 0xd800 ≤ n ∧ n ≤ 0xdbff) (h : IsContent raw)
    (ih : ∀ after : List Char, after.length < raw.length → IsContent after →
      (∃ text, StandsFor after text) ∨ IsRefused after) :
    (∃ text, StandsFor ('\\' :: 'u' :: (digits ++ raw)) text) ∨
      IsRefused ('\\' :: 'u' :: (digits ++ raw)) := by
  have hnumbered (rest : List Char) : numbered? (digits ++ (raw ++ '"' :: rest)) =
      joined? n (raw ++ '"' :: rest) := numbered?_of_high hdigits hhigh _
  cases h with
  | nil =>
    exact .inr (isRefused_of_numbered? fun rest =>
      (hnumbered rest).trans (joined?_of_ne (by decide) _))
  | plain _ hslash _ _ =>
    exact .inr (isRefused_of_numbered? fun rest =>
      (hnumbered rest).trans (joined?_of_ne hslash _))
  | escape hentry _ =>
    exact .inr (isRefused_of_numbered? fun rest =>
      (hnumbered rest).trans (joined?_of_letter (ne_of_mem_escapes hentry) _))
  | @numbered low digits' after hdigits' h =>
    have hnumbered (rest : List Char) : numbered? (digits ++
        ('\\' :: 'u' :: (digits' ++ after) ++ '"' :: rest)) =
          joined? n ('\\' :: 'u' :: (digits' ++ (after ++ '"' :: rest))) := by
      rw [hnumbered]
      simp only [List.cons_append, List.append_assoc]
    by_cases hlow : 0xdc00 ≤ low ∧ low ≤ 0xdfff
    · have hshorter : after.length < ('\\' :: 'u' :: (digits' ++ after)).length := by
        simp only [List.length_cons, List.length_append]
        omega
      rcases ih after hshorter h with ⟨text, htext⟩ | hrefused
      · exact .inl ⟨_, .pair hdigits hhigh hdigits' hlow htext⟩
      · refine .inr (hrefused.escaped
          (c := Char.ofNat (0x10000 + (n - 0xd800) * 0x400 + (low - 0xdc00))) fun rest => ?_)
        rw [List.cons_append, List.append_assoc]
        exact (hnumbered rest).trans (joined?_of_low hdigits' hlow _)
    · exact .inr (isRefused_of_numbered? fun rest =>
        (hnumbered rest).trans (joined?_of_not_low hdigits' hlow _))

/-- **A string stands for something or is refused.** -/
theorem IsContent.standsFor_or_isRefused (h : IsContent raw) :
    (∃ text, StandsFor raw text) ∨ IsRefused raw := by
  -- by length, as the halves of a surrogate pair are read together
  induction hlength : raw.length using Nat.strongRecOn generalizing raw with
  | ind length ih =>
    have ih (after : List Char) (hafter : after.length < length) (h : IsContent after) :
        (∃ text, StandsFor after text) ∨ IsRefused after := ih _ hafter h rfl
    subst hlength
    cases h with
    | nil => exact .inl ⟨[], .nil⟩
    | @plain c after hquote hslash hcontrol h =>
      rcases ih after (Nat.lt_succ_self _) h with ⟨text, htext⟩ | hrefused
      · exact .inl ⟨c :: text, .plain hquote hslash hcontrol htext⟩
      · exact .inr (hrefused.plain hquote hslash hcontrol)
    | @escape entry after hentry h =>
      have hshorter : after.length < ('\\' :: entry.1 :: after).length := by
        simp only [List.length_cons]
        omega
      rcases ih after hshorter h with ⟨text, htext⟩ | hrefused
      · exact .inl ⟨_, .escape hentry htext⟩
      · exact .inr (hrefused.escaped fun rest => escaped?_of_mem hentry _)
    | @numbered n digits after hdigits h =>
      have hshorter : after.length < ('\\' :: 'u' :: (digits ++ after)).length := by
        simp only [List.length_cons, List.length_append]
        omega
      by_cases hhigh : 0xd800 ≤ n ∧ n ≤ 0xdbff
      · exact standsFor_or_isRefused_high hdigits hhigh h fun after' hafter' =>
          ih after' (hafter'.trans hshorter)
      by_cases hlow : 0xdc00 ≤ n ∧ n ≤ 0xdfff
      · exact .inr (isRefused_of_numbered? fun rest => numbered?_of_low hdigits hlow _)
      have hscalar : ¬IsSurrogate n := by
        unfold IsSurrogate
        omega
      rcases ih after hshorter h with ⟨text, htext⟩ | hrefused
      · exact .inl ⟨_, .numbered hdigits hscalar htext⟩
      · refine .inr (hrefused.escaped (c := Char.ofNat n) fun rest => ?_)
        rw [List.cons_append, List.append_assoc]
        exact numbered?_of_scalar hdigits hscalar _

/-- A string stands for one text. -/
theorem StandsFor.unique {text' : List Char} (h : StandsFor raw text) (h' : StandsFor raw text') :
    text = text' := by
  have hread := (unquote?_of_standsFor h []).symm.trans (unquote?_of_standsFor h' [])
  exact congrArg Prod.fst (Option.some.inj hread)

/-- Text without anything to escape stands for itself. -/
theorem standsFor_self (h : ∀ c ∈ text, c ≠ '"' ∧ c ≠ '\\' ∧ 0x20 ≤ c.toNat) :
    StandsFor text text := by
  induction text with
  | nil => exact .nil
  | cons c text ih =>
    obtain ⟨⟨hquote, hslash, hcontrol⟩, htext⟩ := List.forall_mem_cons.1 h
    exact .plain hquote hslash hcontrol (ih htext)

theorem StandsFor.isContent (h : StandsFor raw text) : IsContent raw := by
  induction h with
  | nil => exact .nil
  | plain hquote hslash hcontrol _ ih => exact .plain hquote hslash hcontrol ih
  | escape hentry _ ih => exact .escape hentry ih
  | numbered hdigits _ _ ih => exact .numbered hdigits ih
  | pair hdigits _ hdigits' _ _ ih => exact .numbered hdigits (.numbered hdigits' ih)

/-! ## Numbers -/

/-- Digits, with a zero in front only if it is the only one. -/
def IsWhole (digits : List Char) : Prop :=
  IsDigits digits ∧ (digits.head? = some '0' → digits = ['0'])

/-- Nothing, or a point with digits behind it. -/
inductive IsFraction : List Char → Prop where
  | absent : IsFraction []
  | places {digits : List Char} (h : IsDigits digits) : IsFraction ('.' :: digits)

def IsNumber (text : List Char) : Prop :=
  ∃ sign whole fraction exponent, (sign = [] ∨ sign = ['-']) ∧ IsWhole whole ∧
    IsFraction fraction ∧ IsExponent exponent ∧ text = sign ++ (whole ++ (fraction ++ exponent))

/-- Digits in front of something else are taken off. -/
theorem span_digits {digits : List Char} (hdigits : ∀ c ∈ digits, c.isDigit = true)
    (hrest : Halts Char.isDigit rest) : (digits ++ rest).takeWhile Char.isDigit = digits ∧
      (digits ++ rest).dropWhile Char.isDigit = rest :=
  ⟨takeWhile_append_halts hdigits hrest, dropWhile_append_halts hdigits hrest⟩

/-- What is read off the front does not depend on what follows, unless that goes on with a number.
-/
def IsRead (read : List Char → Except ReadError (Number × List Char)) (text : List Char) : Prop :=
  ∃ result : Except ReadError Number, ∀ rest, Halts continuesNumber rest →
    read (text ++ rest) = result.map fun n => (n, rest)

theorem exponentSign_digits {sign digits : List Char} (hsign : IsSign sign)
    (hdigits : IsDigits digits) : (exponentSign (sign ++ digits)).2 = digits := by
  rcases hsign with rfl | rfl | rfl
  · obtain ⟨c, tail, rfl⟩ := List.exists_cons_of_ne_nil hdigits.1
    have hc : c.isDigit = true := hdigits.2 c (List.mem_cons_self ..)
    unfold exponentSign
    split
    · rename_i heq
      rw [(List.cons.inj heq).1] at hc
      cases hc
    · rename_i heq
      rw [(List.cons.inj heq).1] at hc
      cases hc
    · rfl
  · rfl
  · rfl

theorem exists_splitExponent (h : IsExponent text) :
    ∃ exponent, splitExponent text = .ok (exponent, []) := by
  cases h with
  | absent => exact ⟨_, rfl⟩
  | @marked mark sign digits hmark hsign hdigits =>
    obtain ⟨htake, hdrop⟩ := span_digits hdigits.2 (halts_nil Char.isDigit)
    rw [List.append_nil] at htake hdrop
    refine ⟨((exponentSign (sign ++ digits)).1, digitsValue digits), ?_⟩
    rw [splitExponent_cons, if_pos (show mark = 'e' ∨ mark = 'E' from hmark),
      exponentSign_digits hsign hdigits, htake, hdrop, if_neg hdigits.1]

theorem isRead_floatNumber (h : IsExponent text) (negative : Bool) (significand : Nat)
    (base : Int) : IsRead (floatNumber negative significand base) text := by
  obtain ⟨exponent, hsplit⟩ := exists_splitExponent h
  refine ⟨(scaledBy? significand base exponent.1 exponent.2).elim (.error .malformed)
    fun x => .ok (.float (if negative then -x else x)), fun rest hrest => ?_⟩
  unfold floatNumber
  rw [splitExponent_append hsplit hrest]
  dsimp only [bind, Except.bind]
  cases scaledBy? significand base exponent.1 exponent.2 <;> rfl

/-- A number stops before its fraction and before its exponent. -/
theorem halts_exponent (h : IsExponent text) (hrest : Halts continuesNumber rest) :
    Halts Char.isDigit (text ++ rest) := by
  cases h with
  | absent => exact halts_isDigit hrest
  | marked hmark _ _ => exact halts_cons (IsMark.isDigit hmark) _

theorem isRead_readBehind {fraction exponent : List Char} (hfraction : IsFraction fraction)
    (hexponent : IsExponent exponent) (negative : Bool) (significand dropped : Nat) :
    IsRead (readBehind negative significand dropped) (fraction ++ exponent) := by
  cases hfraction with
  | @places digits hdigits =>
    obtain ⟨result, hresult⟩ := isRead_floatNumber hexponent negative
      (takeDigits significand 0 digits).1 (dropped - (takeDigits significand 0 digits).2 : Int)
    refine ⟨result, fun rest hrest => ?_⟩
    obtain ⟨htake, hdrop⟩ := span_digits hdigits.2 (halts_exponent hexponent hrest)
    rw [List.cons_append, List.cons_append, List.append_assoc, readBehind_point, htake, hdrop,
      if_neg hdigits.1]
    exact hresult rest hrest
  | absent =>
    rw [List.nil_append]
    cases hexponent with
    | absent =>
      -- only a whole number whose digits all fit is kept as it is
      obtain ⟨result, hresult⟩ := isRead_floatNumber .absent negative significand dropped
      by_cases hdropped : dropped ≠ 0
      · refine ⟨result, fun rest hrest => ?_⟩
        rw [List.nil_append, readBehind_of_halts hrest, if_pos hdropped]
        exact hresult rest hrest
      · refine ⟨.ok (readMagnitude.wholeNumber negative significand), fun rest hrest => ?_⟩
        rw [List.nil_append, readBehind_of_halts hrest, if_neg hdropped]
        rfl
    | marked hmark hsign hdigits =>
      obtain ⟨result, hresult⟩ := isRead_floatNumber (.marked hmark hsign hdigits) negative
        significand dropped
      refine ⟨result, fun rest hrest => ?_⟩
      rw [List.cons_append, readBehind_of_ne (ne_of_beq_false hmark.ne_point),
        if_pos (hmark.imp_right Or.inl)]
      exact hresult rest hrest

theorem isRead_readMagnitude {whole fraction exponent : List Char} (hwhole : IsWhole whole)
    (hfraction : IsFraction fraction) (hexponent : IsExponent exponent) (negative : Bool) :
    IsRead (readMagnitude negative) (whole ++ (fraction ++ exponent)) := by
  obtain ⟨result, hresult⟩ := isRead_readBehind hfraction hexponent negative
    (takeDigits 0 0 whole).1 (whole.length - (takeDigits 0 0 whole).2)
  refine ⟨result, fun rest hrest => ?_⟩
  have hhalts : Halts Char.isDigit (fraction ++ exponent ++ rest) := by
    rw [List.append_assoc]
    cases hfraction with
    | absent =>
      rw [List.nil_append]
      exact halts_exponent hexponent hrest
    | places => exact halts_cons (by decide) _
  obtain ⟨htake, hdrop⟩ := span_digits hwhole.1.2 hhalts
  have hallowed : ¬(whole = [] ∨ (whole.head? = some '0' ∧ whole ≠ ['0'])) := by
    rintro (hnil | ⟨hzero, hlone⟩)
    · exact hwhole.1.1 hnil
    · exact hlone (hwhole.2 hzero)
  rw [List.append_assoc, readMagnitude_eq]
  dsimp only
  rw [htake, hdrop, if_neg hallowed]
  exact hresult rest hrest

/-- **Whether and as what a number is read** does not depend on what follows it, unless that goes on
with a number. -/
theorem IsNumber.isRead (h : IsNumber text) : IsRead readNumber text := by
  obtain ⟨sign, whole, fraction, exponent, hsign, hwhole, hfraction, hexponent, rfl⟩ := h
  rcases hsign with rfl | rfl
  · obtain ⟨result, hresult⟩ := isRead_readMagnitude hwhole hfraction hexponent false
    refine ⟨result, fun rest hrest => ?_⟩
    obtain ⟨c, tail, rfl⟩ := List.exists_cons_of_ne_nil hwhole.1.1
    have hminus : c ≠ '-' := by
      rintro rfl
      have hc := hwhole.1.2 '-' (List.mem_cons_self ..)
      cases hc
    rw [← hresult rest hrest]
    exact readNumber_of_ne hminus _
  · exact isRead_readMagnitude hwhole hfraction hexponent true

/-- A number begins with a sign or a digit. -/
theorem IsNumber.exists_front (h : IsNumber text) :
    ∃ c tail, text = c :: tail ∧ (c = '-' ∨ c.isDigit = true) := by
  obtain ⟨sign, whole, fraction, exponent, hsign, hwhole, -, -, rfl⟩ := h
  rcases hsign with rfl | rfl
  · obtain ⟨c, tail, rfl⟩ := List.exists_cons_of_ne_nil hwhole.1.1
    exact ⟨c, _, rfl, .inr (hwhole.1.2 c (List.mem_cons_self ..))⟩
  · exact ⟨'-', _, rfl, .inl rfl⟩

/-! ## Values -/

/-- Items one behind the other, with a comma between any two. -/
inductive Separated {ι : Type} (IsItem : ι → List Char → Prop) : List ι → List Char → Prop where
  | single {item : ι} {text : List Char} (h : IsItem item text) : Separated IsItem [item] text
  | cons {item : ι} {items : List ι} {text rest : List Char} (h : IsItem item text)
    (hrest : Separated IsItem items rest) :
    Separated IsItem (item :: items) (text ++ ',' :: rest)

/-- What may stand between brackets: items, or at most blanks. -/
inductive Listed {ι : Type} (IsItem : ι → List Char → Prop) : List ι → List Char → Prop where
  | none {gap : List Char} (h : AreBlanks gap) : Listed IsItem [] gap
  | some {items : List ι} {text : List Char} (h : Separated IsItem items text) :
    Listed IsItem items text

/-- The text is the value with any blanks around it. -/
def IsElement (value text : List Char) : Prop :=
  ∃ front back, AreBlanks front ∧ AreBlanks back ∧ text = front ++ (value ++ back)

/-- The text is the member with any blanks around its parts. A member is what stands between the
quotes of its key, and its value. -/
def IsMember (member : List Char × List Char) (text : List Char) : Prop :=
  ∃ front middle value, AreBlanks front ∧ AreBlanks middle ∧ IsElement member.2 value ∧
    text = front ++ '"' :: (member.1 ++ '"' :: (middle ++ ':' :: value))

/-- The text is a value, without blanks around it. -/
inductive IsValue : List Char → Prop where
  | null : IsValue ['n', 'u', 'l', 'l']
  | truth : IsValue ['t', 'r', 'u', 'e']
  | falsity : IsValue ['f', 'a', 'l', 's', 'e']
  | number {text : List Char} (h : IsNumber text) : IsValue text
  | string {raw : List Char} (h : IsContent raw) : IsValue ('"' :: (raw ++ ['"']))
  | sequence {values : List (List Char)} {inner : List Char}
    (hvalues : ∀ value ∈ values, IsValue value) (h : Listed IsElement values inner) :
    IsValue ('[' :: (inner ++ [']']))
  | map {members : List (List Char × List Char)} {inner : List Char}
    (hkeys : ∀ member ∈ members, IsContent member.1)
    (hvalues : ∀ member ∈ members, IsValue member.2) (h : Listed IsMember members inner) :
    IsValue ('\x7b' :: (inner ++ ['\x7d']))

/-- The text is a map with the members, and blanks around it. -/
structure IsObject (members : List (List Char × List Char)) (text : String) : Prop where
  isContent : ∀ member ∈ members, IsContent member.1
  isValue : ∀ member ∈ members, IsValue member.2
  layout : ∃ front inner back, AreBlanks front ∧ AreBlanks back ∧ Listed IsMember members inner ∧
    text.toList = front ++ '\x7b' :: (inner ++ '\x7d' :: back)

/-- The text is a sequence of the values, and blanks around it. -/
structure IsArray (values : List (List Char)) (text : String) : Prop where
  isValue : ∀ value ∈ values, IsValue value
  layout : ∃ front inner back, AreBlanks front ∧ AreBlanks back ∧ Listed IsElement values inner ∧
    text.toList = front ++ '[' :: (inner ++ ']' :: back)

/-- What the first character of a value tells about the rest of it. -/
structure Shown (c : Char) (tail : List Char) : Prop where
  nonblank : isBlank c = false
  nonclosing : c ≠ ']'
  null : c = 'n' → tail = ['u', 'l', 'l']
  truth : c = 't' → tail = ['r', 'u', 'e']
  falsity : c = 'f' → tail = ['a', 'l', 's', 'e']
  number : c = '-' ∨ c.isDigit = true → IsNumber (c :: tail)
  string : c = '"' → ∃ raw, IsContent raw ∧ tail = raw ++ ['"']
  sequence : c = '[' → ∃ values inner, (∀ value ∈ values, IsValue value) ∧
    Listed IsElement values inner ∧ tail = inner ++ [']']
  map : c = '\x7b' → ∃ members inner, (∀ member ∈ members, IsContent member.1) ∧
    (∀ member ∈ members, IsValue member.2) ∧ Listed IsMember members inner ∧
    tail = inner ++ ['\x7d']

/-- What does not begin other values. -/
theorem ne_of_beginsNumber (h : c = '-' ∨ c.isDigit = true) :
    isBlank c = false ∧ c ≠ ']' ∧ c ≠ 'n' ∧ c ≠ 't' ∧ c ≠ 'f' ∧ c ≠ '"' ∧ c ≠ '[' ∧ c ≠ '\x7b' := by
  rcases h with rfl | h
  · decide
  · obtain ⟨n, rfl⟩ := exists_digit h
    revert n
    decide

/-- **What a value begins with tells its kind.** -/
theorem IsValue.exists_shown (h : IsValue text) : ∃ c tail, text = c :: tail ∧ Shown c tail := by
  have hletter {c : Char} (hc : ¬(c = '-' ∨ c.isDigit = true)) (tail : List Char)
      (h : c = '-' ∨ c.isDigit = true) : IsNumber (c :: tail) := absurd h hc
  cases h with
  | null =>
    exact ⟨_, _, rfl, rfl, by decide, fun _ => rfl, nofun, nofun, hletter (by decide) _, nofun,
      nofun, nofun⟩
  | truth =>
    exact ⟨_, _, rfl, rfl, by decide, nofun, fun _ => rfl, nofun, hletter (by decide) _, nofun,
      nofun, nofun⟩
  | falsity =>
    exact ⟨_, _, rfl, rfl, by decide, nofun, nofun, fun _ => rfl, hletter (by decide) _, nofun,
      nofun, nofun⟩
  | number h =>
    obtain ⟨c, tail, rfl, hc⟩ := h.exists_front
    obtain ⟨hblank, hclosing, hn, ht, hf, hquote, hbracket, hbrace⟩ := ne_of_beginsNumber hc
    exact ⟨c, tail, rfl, hblank, hclosing, (absurd · hn), (absurd · ht), (absurd · hf),
      fun _ => h, (absurd · hquote), (absurd · hbracket), (absurd · hbrace)⟩
  | string h =>
    exact ⟨_, _, rfl, rfl, by decide, nofun, nofun, nofun, hletter (by decide) _,
      fun _ => ⟨_, h, rfl⟩, nofun, nofun⟩
  | sequence hvalues h =>
    exact ⟨_, _, rfl, rfl, by decide, nofun, nofun, nofun, hletter (by decide) _, nofun,
      fun _ => ⟨_, _, hvalues, h, rfl⟩, nofun⟩
  | map hkeys hvalues h =>
    exact ⟨_, _, rfl, rfl, by decide, nofun, nofun, nofun, hletter (by decide) _, nofun, nofun,
      fun _ => ⟨_, _, hkeys, hvalues, h, rfl⟩⟩

end CurveArt.Json
