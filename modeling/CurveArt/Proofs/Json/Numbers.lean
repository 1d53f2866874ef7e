import CurveArt.Json.Number
import CurveArt.Proofs.Decimal.ReadBack

/-!
# Numbers in a JSON text

A number is read as far as it goes: its digits, a point with digits behind it, a mark with a sign
and digits. So a text that reads as a number from end to end reads as the same number wherever what
follows cannot go on with it, and is taken whole. Whole numbers are written without leading zeros,
and read back as long as they fit.

Main results:

* `readNumber_append`: a number before other text.
* `readNumber_toDigits`: a whole number as it is written.
-/

namespace CurveArt.Json

open Decimal (Halts halts_nil halts_cons halts_dropWhile takeWhile_append_halts
  dropWhile_append_halts digitsValue isDigits_toDigits)

variable {text rest : List Char} {negative : Bool} {significand dropped : Nat} {n : Number}

/-- Whether a number may go on with the character. -/
def continuesNumber (c : Char) : Bool :=
  c.isDigit || c == '.' || c == 'e' || c == 'E'

theorem not_continuesNumber {c : Char} (h : continuesNumber c = false) :
    c.isDigit = false ∧ c ≠ '.' ∧ c ≠ 'e' ∧ c ≠ 'E' := by
  simpa only [continuesNumber, Bool.or_eq_false_iff, beq_eq_false_iff_ne, and_assoc] using h

theorem halts_isDigit (h : Halts continuesNumber rest) : Halts Char.isDigit rest :=
  fun c hc => (not_continuesNumber (h c hc)).1

/-- Digits are taken off a text no matter what follows it, unless that begins with a digit. -/
theorem span_append (text : List Char) (hrest : Halts Char.isDigit rest) :
    (text ++ rest).takeWhile Char.isDigit = text.takeWhile Char.isDigit ∧
      (text ++ rest).dropWhile Char.isDigit = text.dropWhile Char.isDigit ++ rest := by
  have hdigits : ∀ c ∈ text.takeWhile Char.isDigit, c.isDigit = true :=
    fun c hc => List.mem_takeWhile_imp hc
  have hhalts : Halts Char.isDigit (text.dropWhile Char.isDigit ++ rest) := by
    have h := halts_dropWhile Char.isDigit text
    cases hd : text.dropWhile Char.isDigit with
    | nil => exact hrest
    | cons c after => exact halts_cons (h c (by rw [hd]; rfl)) _
  have hsplit : text ++ rest =
      text.takeWhile Char.isDigit ++ (text.dropWhile Char.isDigit ++ rest) := by
    rw [← List.append_assoc, List.takeWhile_append_dropWhile]
  rw [hsplit]
  exact ⟨takeWhile_append_halts hdigits hhalts, dropWhile_append_halts hdigits hhalts⟩

/-! ## Exponents -/

/-- Takes the sign of an exponent off, and tells whether it is negative. -/
def exponentSign : List Char → Bool × List Char
  | '-' :: tail => (true, tail)
  | '+' :: tail => (false, tail)
  | tail => (false, tail)

theorem splitExponent_cons (c : Char) (tail : List Char) :
    splitExponent (c :: tail) =
      if c = 'e' ∨ c = 'E' then
        if (exponentSign tail).2.takeWhile Char.isDigit = [] then .error .malformed
        else
          .ok (((exponentSign tail).1, digitsValue ((exponentSign tail).2.takeWhile Char.isDigit)),
            (exponentSign tail).2.dropWhile Char.isDigit)
      else .ok ((false, 0), c :: tail) :=
  rfl

theorem exponentSign_append (h : (exponentSign text).2 ≠ []) (rest : List Char) :
    exponentSign (text ++ rest) = ((exponentSign text).1, (exponentSign text).2 ++ rest) := by
  cases text with
  | nil => exact absurd rfl h
  | cons c tail =>
    by_cases hminus : c = '-'
    · subst hminus
      rfl
    · by_cases hplus : c = '+'
      · subst hplus
        rfl
      · have hplain (after : List Char) : exponentSign (c :: after) = (false, c :: after) := by
          unfold exponentSign
          split
          · rename_i heq
            exact absurd (List.cons.inj heq).1 hminus
          · rename_i heq
            exact absurd (List.cons.inj heq).1 hplus
          · rfl
        rw [List.cons_append, hplain, hplain]
        rfl

theorem splitExponent_of_halts (h : Halts continuesNumber rest) :
    splitExponent rest = .ok ((false, 0), rest) := by
  cases rest with
  | nil => rfl
  | cons c rest =>
    obtain ⟨-, -, he, hE⟩ := not_continuesNumber (h c rfl)
    rw [splitExponent_cons, if_neg (not_or.2 ⟨he, hE⟩)]

theorem splitExponent_append {exponent : Bool × Nat} (h : splitExponent text = .ok (exponent, []))
    (hrest : Halts continuesNumber rest) :
    splitExponent (text ++ rest) = .ok (exponent, rest) := by
  cases text with
  | nil =>
    obtain rfl : (false, 0) = exponent := congrArg Prod.fst (Except.ok.inj h)
    exact splitExponent_of_halts hrest
  | cons c tail =>
    rw [splitExponent_cons] at h
    rw [List.cons_append, splitExponent_cons]
    split at h
    case isFalse => cases h
    case isTrue hmark =>
      split at h
      case isTrue => cases h
      case isFalse hdigits =>
        obtain ⟨rfl, hleft⟩ := Prod.mk.inj (Except.ok.inj h)
        have hsigned : (exponentSign tail).2 ≠ [] := by
          intro hnil
          rw [hnil] at hdigits
          exact hdigits rfl
        obtain ⟨htake, hdrop⟩ := span_append (exponentSign tail).2 (halts_isDigit hrest)
        rw [if_pos hmark, exponentSign_append hsigned, htake, hdrop, if_neg hdigits, hleft]
        rfl

/-! ## Numbers -/

theorem floatNumber_append {base : Int}
    (h : floatNumber negative significand base text = .ok (n, []))
    (hrest : Halts continuesNumber rest) :
    floatNumber negative significand base (text ++ rest) = .ok (n, rest) := by
  unfold floatNumber at h ⊢
  cases hsplit : splitExponent text with
  | error e =>
    rw [hsplit] at h
    cases h
  | ok parts =>
    obtain ⟨exponent, left⟩ := parts
    rw [hsplit] at h
    dsimp only [bind, Except.bind] at h
    split at h
    · cases h
    · rename_i x hx
      obtain ⟨rfl, rfl⟩ := Prod.mk.inj (Except.ok.inj h)
      rw [splitExponent_append hsplit hrest]
      dsimp only [bind, Except.bind]
      rw [hx]

/-- What is read behind the whole digits of a number, some of which may have been dropped. -/
def readBehind (negative : Bool) (significand dropped : Nat) (text : List Char) :
    Except ReadError (Number × List Char) :=
  match text with
  | '.' :: afterPoint =>
    if afterPoint.takeWhile Char.isDigit = [] then .error .malformed
    else
      let (significand, taken) := takeDigits significand 0 (afterPoint.takeWhile Char.isDigit)
      floatNumber negative significand (dropped - taken : Int) (afterPoint.dropWhile Char.isDigit)
  | c :: _ =>
    if c = 'e' ∨ c = 'E' ∨ dropped ≠ 0 then floatNumber negative significand dropped text
    else .ok (readMagnitude.wholeNumber negative significand, text)
  | [] =>
    if dropped ≠ 0 then floatNumber negative significand dropped []
    else .ok (readMagnitude.wholeNumber negative significand, [])

theorem readMagnitude_eq (negative : Bool) (text : List Char) :
    readMagnitude negative text =
      let whole := text.takeWhile Char.isDigit
      if whole = [] ∨ (whole.head? = some '0' ∧ whole ≠ ['0']) then .error .malformed
      else
        readBehind negative (takeDigits 0 0 whole).1 (whole.length - (takeDigits 0 0 whole).2)
          (text.dropWhile Char.isDigit) :=
  rfl

theorem readBehind_point (after : List Char) :
    readBehind negative significand dropped ('.' :: after) =
      if after.takeWhile Char.isDigit = [] then .error .malformed
      else
        let (significand, taken) := takeDigits significand 0 (after.takeWhile Char.isDigit)
        floatNumber negative significand (dropped - taken : Int) (after.dropWhile Char.isDigit) :=
  rfl

theorem readBehind_of_ne {c : Char} (hc : c ≠ '.') (after : List Char) :
    readBehind negative significand dropped (c :: after) =
      if c = 'e' ∨ c = 'E' ∨ dropped ≠ 0 then
        floatNumber negative significand dropped (c :: after)
      else .ok (readMagnitude.wholeNumber negative significand, c :: after) := by
  unfold readBehind
  split
  · rename_i heq
    exact absurd (List.cons.inj heq).1 hc
  · rename_i heq
    rw [(List.cons.inj heq).1]
  · rename_i heq
    cases heq

theorem readBehind_of_halts (hrest : Halts continuesNumber rest) :
    readBehind negative significand dropped rest =
      if dropped ≠ 0 then floatNumber negative significand dropped rest
      else .ok (readMagnitude.wholeNumber negative significand, rest) := by
  cases rest with
  | nil => rfl
  | cons c after =>
    obtain ⟨-, hpoint, he, hE⟩ := not_continuesNumber (hrest c rfl)
    rw [readBehind_of_ne hpoint]
    simp only [he, hE, false_or]

theorem readBehind_append (h : readBehind negative significand dropped text = .ok (n, []))
    (hrest : Halts continuesNumber rest) :
    readBehind negative significand dropped (text ++ rest) = .ok (n, rest) := by
  cases text with
  | nil =>
    rw [readBehind_of_halts (halts_nil _)] at h
    rw [List.nil_append, readBehind_of_halts hrest]
    split at h
    case isTrue hdropped =>
      rw [if_pos hdropped]
      exact floatNumber_append h hrest
    case isFalse hdropped =>
      obtain ⟨rfl, -⟩ := Prod.mk.inj (Except.ok.inj h)
      exact if_neg hdropped
  | cons c after =>
    rw [List.cons_append]
    by_cases hpoint : c = '.'
    · subst hpoint
      obtain ⟨htake, hdrop⟩ := span_append after (halts_isDigit hrest)
      rw [readBehind_point] at h ⊢
      rw [htake, hdrop]
      split at h
      case isTrue => cases h
      case isFalse hplaces =>
        rw [if_neg hplaces]
        exact floatNumber_append h hrest
    · rw [readBehind_of_ne hpoint] at h ⊢
      split at h
      case isTrue hmark =>
        rw [if_pos hmark]
        exact floatNumber_append h hrest
      case isFalse => cases h

theorem readMagnitude_append (h : readMagnitude negative text = .ok (n, []))
    (hrest : Halts continuesNumber rest) :
    readMagnitude negative (text ++ rest) = .ok (n, rest) := by
  obtain ⟨htake, hdrop⟩ := span_append text (halts_isDigit hrest)
  rw [readMagnitude_eq] at h ⊢
  rw [htake, hdrop]
  dsimp only at h ⊢
  split at h
  case isTrue => cases h
  case isFalse hwhole =>
    rw [if_neg hwhole]
    exact readBehind_append h hrest

theorem readNumber_of_ne {c : Char} (hc : c ≠ '-') (tail : List Char) :
    readNumber (c :: tail) = readMagnitude false (c :: tail) := by
  unfold readNumber
  split
  · rename_i heq
    exact absurd (List.cons.inj heq).1 hc
  · rfl

/-- **A number reads the same before other text**, unless that can go on with it. -/
theorem readNumber_append (h : readNumber text = .ok (n, []))
    (hrest : Halts continuesNumber rest) : readNumber (text ++ rest) = .ok (n, rest) := by
  cases text with
  | nil => cases h
  | cons c after =>
    by_cases hminus : c = '-'
    · subst hminus
      exact readMagnitude_append h hrest
    · rw [readNumber_of_ne hminus] at h
      rw [List.cons_append, readNumber_of_ne hminus]
      exact readMagnitude_append h hrest

/-! ## Whole numbers -/

theorem le_ofDigitChars (digits : List Char) (m : Nat) : m ≤ Nat.ofDigitChars 10 digits m := by
  induction digits generalizing m with
  | nil => exact le_rfl
  | cons c digits ih =>
    rw [Nat.ofDigitChars_cons]
    exact le_trans (by omega) (ih _)

/-- Digits that fit are all taken. -/
theorem takeDigits_of_lt {digits : List Char} {significand : Nat}
    (h : Nat.ofDigitChars 10 digits significand < significandBound) (taken : Nat) :
    takeDigits significand taken digits =
      (Nat.ofDigitChars 10 digits significand, taken + digits.length) := by
  induction digits generalizing significand taken with
  | nil => rfl
  | cons c digits ih =>
    rw [Nat.ofDigitChars_cons] at h
    -- no significand on the way is greater than the last one
    have hnext : 10 * significand + (c.toNat - '0'.toNat) < significandBound :=
      lt_of_le_of_lt (le_ofDigitChars digits _) h
    unfold takeDigits
    dsimp only
    rw [if_pos hnext, ih h, Nat.ofDigitChars_cons, List.length_cons]
    congr 1
    omega

/-- No number but zero is written with a zero in front. -/
theorem head?_toDigits_ne {value : Nat} (hvalue : value ≠ 0) :
    (Nat.toDigits 10 value).head? ≠ some '0' := by
  induction value using Nat.strongRecOn with
  | ind value ih =>
    rcases Nat.lt_or_ge value 10 with hsmall | hlarge
    · rw [Nat.toDigits_of_lt_base hsmall]
      have hdigits : ∀ d : Fin 10, d.val ≠ 0 → [Nat.digitChar d].head? ≠ some '0' := by decide
      exact hdigits ⟨value, hsmall⟩ hvalue
    · rw [Nat.toDigits_of_base_le (by decide) hlarge, List.head?_append_of_ne_nil]
      · exact ih (value / 10) (by omega) (by omega)
      · exact Nat.toDigits_ne_nil

/-- **A whole number that fits reads back.** -/
theorem readNumber_toDigits {value : Nat} (h : value < significandBound) :
    readNumber (Nat.toDigits 10 value) = .ok (.natural value, []) := by
  obtain ⟨hne, hdigits⟩ := isDigits_toDigits value
  have hsplit := (halts_nil Char.isDigit)
  have htake : (Nat.toDigits 10 value).takeWhile Char.isDigit = Nat.toDigits 10 value := by
    simpa only [List.append_nil] using takeWhile_append_halts hdigits hsplit
  have hdrop : (Nat.toDigits 10 value).dropWhile Char.isDigit = [] := by
    simpa only [List.append_nil] using dropWhile_append_halts hdigits hsplit
  have hzero : ¬(Nat.toDigits 10 value = [] ∨
      ((Nat.toDigits 10 value).head? = some '0' ∧ Nat.toDigits 10 value ≠ ['0'])) := by
    rintro (hnil | ⟨hfirst, hlone⟩)
    · exact hne hnil
    · by_cases hvalue : value = 0
      · rw [hvalue, Nat.toDigits_zero] at hlone
        exact hlone rfl
      · exact head?_toDigits_ne hvalue hfirst
  have hsum : Nat.ofDigitChars 10 (Nat.toDigits 10 value) 0 = value := Nat.ofDigitChars_ten_toDigits
  have htaken : takeDigits 0 0 (Nat.toDigits 10 value) =
      (Nat.ofDigitChars 10 (Nat.toDigits 10 value) 0, 0 + (Nat.toDigits 10 value).length) :=
    takeDigits_of_lt (by rw [hsum]; exact h) 0
  have hmagnitude : readMagnitude false (Nat.toDigits 10 value) = .ok (.natural value, []) := by
    rw [readMagnitude_eq]
    dsimp only
    rw [htake, hdrop, if_neg hzero, htaken, hsum, Nat.zero_add, Nat.sub_self]
    rfl
  obtain ⟨c, tail, hcons⟩ := List.exists_cons_of_ne_nil hne
  have hminus : c ≠ '-' := by
    rintro rfl
    have := hdigits '-' (by rw [hcons]; exact List.mem_cons_self ..)
    cases this
  rw [hcons] at hmagnitude ⊢
  rw [readNumber_of_ne hminus]
  exact hmagnitude

end CurveArt.Json
