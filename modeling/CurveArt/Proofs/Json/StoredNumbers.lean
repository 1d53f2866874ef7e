import CurveArt.Proofs.Binary64.Values
import CurveArt.Proofs.Json.Numbers

/-!
# Numbers as they are stored

A double is stored as a decimal that rounds to it: without exponent, with at least one place, or
with one digit before the point and an exponent. Reading such a text takes all digits for one
significand, with the exponent that puts the point where it was written.

Main results:

* `readMagnitude_pointed` and `readMagnitude_marked`: numbers with places and with exponents.
* `exists_significand`: a stored decimal is read as a significand and an exponent that stand for it.
-/

namespace CurveArt.Json

open Decimal (IsDigits Halts halts_nil halts_cons takeWhile_append_halts dropWhile_append_halts
  digitsValue digitsValue_eq isDigits_toDigits render positionalText scientificText)

variable {whole places tail : List Char} {negative : Bool} {significand : Nat} {base : Int}

/-! ## Numbers in their parts -/

/-- What a double that was found is read as. -/
def readAs (negative : Bool) (found : Option Float) : Except ReadError (Number × List Char) :=
  match found with
  | none => .error .malformed
  | some x => .ok (.float (if negative then -x else x), [])

theorem floatNumber_of_splitExponent {negativeExponent : Bool} {exponent : Nat}
    (h : splitExponent tail = .ok ((negativeExponent, exponent), []))
    (hexponent : exponent ≤ maxExponent) :
    floatNumber negative significand base tail = readAs negative (scaled?
      significand.toUInt64.toFloat (if negativeExponent then base - exponent else base + exponent))
    := by
  rw [floatNumber, h]
  show (match scaledBy? significand base negativeExponent exponent with
    | none => Except.error ReadError.malformed
    | some x => .ok (Number.float (if negative then -x else x), [])) = _
  rw [scaledBy?, if_neg (Nat.not_lt.2 hexponent)]
  rfl

/-- A text that begins with digits has no others in front of a point or of a mark. -/
theorem readMagnitude_whole (hwhole : IsDigits whole)
    (hzero : whole.head? = some '0' → whole = ['0'])
    (htail : Halts Char.isDigit tail) (hfits : digitsValue whole < 2 ^ 64) :
    readMagnitude negative (whole ++ tail) = readBehind negative (digitsValue whole) 0 tail := by
  have htaken : takeDigits 0 0 whole = (digitsValue whole, 0 + whole.length) :=
    takeDigits_of_lt hfits 0
  have hfirst : ¬(whole = [] ∨ (whole.head? = some '0' ∧ whole ≠ ['0'])) := by
    rintro (hnil | ⟨hhead, hne⟩)
    · exact hwhole.1 hnil
    · exact hne (hzero hhead)
  rw [readMagnitude_eq]
  dsimp only
  rw [takeWhile_append_halts hwhole.2 htail, dropWhile_append_halts hwhole.2 htail, if_neg hfirst,
    htaken, Nat.zero_add, Nat.sub_self]

theorem digitsValue_le_append (whole places : List Char) :
    digitsValue whole ≤ digitsValue (whole ++ places) := by
  rw [digitsValue_eq, digitsValue_eq, Nat.ofDigitChars_append]
  exact le_ofDigitChars places _

/-- A number with places. -/
theorem readMagnitude_pointed (hwhole : IsDigits whole)
    (hzero : whole.head? = some '0' → whole = ['0']) (hplaces : IsDigits places)
    (htail : Halts Char.isDigit tail) (hfits : digitsValue (whole ++ places) < 2 ^ 64) :
    readMagnitude negative (whole ++ '.' :: (places ++ tail)) =
      floatNumber negative (digitsValue (whole ++ places)) (-places.length) tail := by
  have hpoint : Halts Char.isDigit ('.' :: (places ++ tail)) := halts_cons (by decide) _
  have hvalue : Nat.ofDigitChars 10 places (digitsValue whole) = digitsValue (whole ++ places) := by
    rw [digitsValue_eq, digitsValue_eq, Nat.ofDigitChars_append]
  have htaken : takeDigits (digitsValue whole) 0 places =
      (digitsValue (whole ++ places), 0 + places.length) := by
    rw [← hvalue]
    exact takeDigits_of_lt (by rw [hvalue]; exact hfits) 0
  rw [readMagnitude_whole hwhole hzero hpoint ((digitsValue_le_append _ _).trans_lt hfits),
    readBehind_point, takeWhile_append_halts hplaces.2 htail,
    dropWhile_append_halts hplaces.2 htail, if_neg hplaces.1, htaken]
  simp

/-- A number with a mark behind its whole digits. -/
theorem readMagnitude_marked (hwhole : IsDigits whole)
    (hzero : whole.head? = some '0' → whole = ['0']) (hfits : digitsValue whole < 2 ^ 64)
    (tail : List Char) : readMagnitude negative (whole ++ 'e' :: tail) =
      floatNumber negative (digitsValue whole) 0 ('e' :: tail) := by
  rw [readMagnitude_whole hwhole hzero (halts_cons (by decide) _) hfits,
    readBehind_of_ne (by decide), if_pos (.inl rfl)]
  rfl

/-! ## Exponents as they are written -/

/-- The exponent of a stored number, from behind its mark. -/
def exponentText (exponent : Int) : List Char :=
  (if exponent < 0 then ['-'] else ['+']) ++ Nat.toDigits 10 exponent.natAbs

theorem splitExponent_exponentText (exponent : Int) :
    splitExponent ('e' :: exponentText exponent) =
      .ok ((decide (exponent < 0), exponent.natAbs), []) := by
  obtain ⟨hne, hdigits⟩ := isDigits_toDigits exponent.natAbs
  have htake : (Nat.toDigits 10 exponent.natAbs).takeWhile Char.isDigit =
      Nat.toDigits 10 exponent.natAbs := List.takeWhile_eq_self_iff.2 hdigits
  have hdrop : (Nat.toDigits 10 exponent.natAbs).dropWhile Char.isDigit = [] :=
    List.dropWhile_eq_nil_iff.2 hdigits
  have hvalue : digitsValue (Nat.toDigits 10 exponent.natAbs) = exponent.natAbs :=
    Nat.ofDigitChars_ten_toDigits
  have hsign : exponentSign (exponentText exponent) =
      (decide (exponent < 0), Nat.toDigits 10 exponent.natAbs) := by
    rw [exponentText]
    split_ifs with h <;> simp [exponentSign, h]
  rw [splitExponent_cons, if_pos (.inl rfl), hsign]
  simp only
  rw [htake, hdrop, if_neg hne, hvalue]

theorem floatNumber_exponentText {exponent : Int} (h : exponent.natAbs ≤ maxExponent) :
    floatNumber negative significand base ('e' :: exponentText exponent) =
      readAs negative (scaled? significand.toUInt64.toFloat (base + exponent)) := by
  rw [floatNumber_of_splitExponent (splitExponent_exponentText exponent) h]
  congr 2
  by_cases hneg : exponent < 0
  · rw [decide_eq_true hneg, if_pos rfl]
    omega
  · rw [decide_eq_false hneg, if_neg Bool.false_ne_true]
    omega

theorem floatNumber_nil :
    floatNumber negative significand base [] =
      readAs negative (scaled? significand.toUInt64.toFloat base) := by
  have hnone : splitExponent [] = .ok ((false, 0), []) := rfl
  rw [floatNumber_of_splitExponent hnone (Nat.zero_le _)]
  simp

/-! ## Decimals as they are written -/

/-- The significand and the exponent that stand for the decimal. A number with fewer than seventeen
whole digits has places. -/
structure Significand (d : Decimal) (n : Nat) (exponent : Int) : Prop where
  pos : 0 < n
  lt : n < 2 ^ 64
  value_eq : (n : ℚ) * 10 ^ exponent = d.digits * 10 ^ d.exponent
  neg : (d.digits : ℚ) * 10 ^ d.exponent < 10 ^ 16 → exponent < 0

variable {d : Decimal}

theorem digits_bounds {n : Nat} (hpos : 0 < n) :
    10 ^ ((Nat.toDigits 10 n).length - 1) ≤ n ∧ n < 10 ^ (Nat.toDigits 10 n).length := by
  have hlength : 0 < (Nat.toDigits 10 n).length := Nat.length_toDigits_pos
  refine ⟨?_, (Nat.length_toDigits_le_iff (by decide) hlength).1 le_rfl⟩
  by_cases hone : (Nat.toDigits 10 n).length = 1
  · rw [hone]
    exact hpos
  · by_contra hlt
    have := (Nat.length_toDigits_le_iff (b := 10) (n := n) (by decide)
      (k := (Nat.toDigits 10 n).length - 1) (by omega)).2 (Nat.not_le.1 hlt)
    omega

/-- The exponent of the leading digit. -/
def leading (d : Decimal) : Int :=
  (Nat.toDigits 10 d.digits).length - 1 + d.exponent

theorem tenPow_leading_le (hpos : 0 < d.digits) :
    (10 : ℚ) ^ leading d ≤ d.digits * 10 ^ d.exponent := by
  have hlength : 0 < (Nat.toDigits 10 d.digits).length := Nat.length_toDigits_pos
  have hle : (10 : ℚ) ^ ((Nat.toDigits 10 d.digits).length - 1) ≤ d.digits := by
    exact_mod_cast (digits_bounds hpos).1
  have hsplit : leading d =
      (((Nat.toDigits 10 d.digits).length - 1 : Nat) : Int) + d.exponent := by
    rw [leading]
    omega
  rw [hsplit, zpow_add₀ (by norm_num), zpow_natCast]
  gcongr

theorem head?_toDigits (hpos : 0 < d.digits) (rest : List Char) :
    (Nat.toDigits 10 d.digits ++ rest).head? = some '0' →
      Nat.toDigits 10 d.digits ++ rest = ['0'] := by
  intro h
  rw [List.head?_append_of_ne_nil _ Nat.toDigits_ne_nil] at h
  exact absurd h (head?_toDigits_ne hpos.ne')

/-- A text of whole digits, a point and places for the decimal. -/
structure PointedText (d : Decimal) (whole places : List Char) : Prop where
  isDigits_whole : IsDigits whole
  zero : whole.head? = some '0' → whole = ['0']
  isDigits_places : IsDigits places
  pos : 0 < digitsValue (whole ++ places)
  lt : digitsValue (whole ++ places) < 2 ^ 64
  value_eq : (digitsValue (whole ++ places) : ℚ) * 10 ^ (-(places.length : Int)) =
    d.digits * 10 ^ d.exponent

theorem isDigits_zero : IsDigits ['0'] :=
  ⟨List.cons_ne_nil _ _, fun c hc => @Decimal.isDigit_of_mem_zeros 1 c hc⟩

/-- All digits are places, with zeros before them. -/
theorem pointed_places (hpos : 0 < d.digits) (hfits : d.digits < 2 ^ 64)
    (hpoint : leading d + 1 ≤ 0) : PointedText d ['0']
      (List.replicate (-(leading d + 1)).toNat '0' ++ Nat.toDigits 10 d.digits) := by
  obtain ⟨hne, hdigits⟩ := isDigits_toDigits d.digits
  have hleading : leading d = (Nat.toDigits 10 d.digits).length - 1 + d.exponent := rfl
  have hall : digitsValue (['0'] ++ (List.replicate (-(leading d + 1)).toNat '0' ++
      Nat.toDigits 10 d.digits)) = d.digits :=
    (Decimal.digitsValue_zeros_append ((-(leading d + 1)).toNat + 1) _).trans
      Nat.ofDigitChars_ten_toDigits
  refine ⟨isDigits_zero, fun _ => rfl, ⟨List.append_ne_nil_of_right_ne_nil _ hne,
    Decimal.forall_digit_append (fun _ => Decimal.isDigit_of_mem_zeros) hdigits⟩, ?_, ?_, ?_⟩
  · rw [hall]
    exact hpos
  · rw [hall]
    exact hfits
  · rw [hall, List.length_append, List.length_replicate]
    congr 2
    omega

/-- All digits stand before the point, with zeros behind them. -/
theorem pointed_whole (hpos : 0 < d.digits) (hhigh : leading d < 16) {k : Nat}
    (hk : leading d + 1 = (Nat.toDigits 10 d.digits).length + k) :
    PointedText d (Nat.toDigits 10 d.digits ++ List.replicate k '0') ['0'] := by
  obtain ⟨hne, hdigits⟩ := isDigits_toDigits d.digits
  have hvalue : digitsValue (Nat.toDigits 10 d.digits) = d.digits := Nat.ofDigitChars_ten_toDigits
  have hleading : leading d = (Nat.toDigits 10 d.digits).length - 1 + d.exponent := rfl
  have hall : digitsValue (Nat.toDigits 10 d.digits ++ List.replicate k '0' ++ ['0']) =
      d.digits * 10 ^ (k + 1) := by
    rw [List.append_assoc, ← List.replicate_succ', Decimal.digitsValue_append_zeros, hvalue]
  -- there are at most seventeen digits with the zero behind the point
  have hlt : d.digits * 10 ^ (k + 1) < 10 ^ 17 := by
    calc d.digits * 10 ^ (k + 1)
        < 10 ^ (Nat.toDigits 10 d.digits).length * 10 ^ (k + 1) :=
          Nat.mul_lt_mul_of_pos_right (digits_bounds hpos).2 (Nat.pow_pos (by decide))
      _ = 10 ^ ((Nat.toDigits 10 d.digits).length + (k + 1)) := (Nat.pow_add ..).symm
      _ ≤ 10 ^ 17 := Nat.pow_le_pow_right (by decide) (by omega)
  refine ⟨⟨List.append_ne_nil_of_left_ne_nil hne _,
    Decimal.forall_digit_append hdigits fun _ => Decimal.isDigit_of_mem_zeros⟩,
    head?_toDigits hpos _, isDigits_zero, ?_, ?_, ?_⟩
  · rw [hall]
    exact Nat.mul_pos hpos (Nat.pow_pos (by decide))
  · rw [hall]
    exact hlt.trans (by decide)
  · have hexponent : d.exponent = k := by omega
    rw [hall, hexponent, List.length_singleton, zpow_natCast]
    push_cast
    rw [pow_succ]
    field_simp

/-- The point stands between the digits. -/
theorem pointed_split (hpos : 0 < d.digits) (hfits : d.digits < 2 ^ 64) {k : Nat} (hk : 0 < k)
    (hshort : k < (Nat.toDigits 10 d.digits).length) (hpoint : leading d + 1 = k) :
    PointedText d ((Nat.toDigits 10 d.digits).take k) ((Nat.toDigits 10 d.digits).drop k) := by
  obtain ⟨hne, hdigits⟩ := isDigits_toDigits d.digits
  have hvalue : digitsValue (Nat.toDigits 10 d.digits) = d.digits := Nat.ofDigitChars_ten_toDigits
  have hleading : leading d = (Nat.toDigits 10 d.digits).length - 1 + d.exponent := rfl
  have htake : (Nat.toDigits 10 d.digits).take k ≠ [] := by
    intro hnil
    rcases List.take_eq_nil_iff.1 hnil with hzero | hnil
    · omega
    · exact hne hnil
  have hdrop : (Nat.toDigits 10 d.digits).drop k ≠ [] := by
    intro hnil
    have := List.drop_eq_nil_iff.1 hnil
    omega
  have hfirst : ((Nat.toDigits 10 d.digits).take k).head? ≠ some '0' := by
    intro hzero
    rw [← List.head?_append_of_ne_nil _ htake, List.take_append_drop] at hzero
    exact head?_toDigits_ne hpos.ne' hzero
  refine ⟨⟨htake, fun c hc => hdigits c (List.mem_of_mem_take hc)⟩, fun h => absurd h hfirst,
    ⟨hdrop, fun c hc => hdigits c (List.mem_of_mem_drop hc)⟩, ?_, ?_, ?_⟩
  · rw [List.take_append_drop, hvalue]
    exact hpos
  · rw [List.take_append_drop, hvalue]
    exact hfits
  · rw [List.take_append_drop, hvalue, List.length_drop]
    congr 2
    omega

/-- The text of a number without exponent, in its parts. -/
theorem exists_pointed (hpos : 0 < d.digits) (hfits : d.digits < 2 ^ 64)
    (hhigh : leading d < 16) : ∃ whole places, PointedText d whole places ∧
      positionalText true (Nat.toDigits 10 d.digits) (leading d + 1) = whole ++ '.' :: places := by
  rw [positionalText]
  split
  · next hpoint => exact ⟨_, _, pointed_places hpos hfits hpoint, rfl⟩
  next hpoint =>
  split
  · next hlong =>
    rw [if_pos rfl]
    exact ⟨_, _, pointed_whole hpos hhigh (by omega), rfl⟩
  · next hshort =>
    exact ⟨_, _, pointed_split hpos hfits (by omega) (not_le.1 hshort) (by omega), rfl⟩

/-- A number with an exponent has its leading digit before the point. -/
theorem readMagnitude_scientificText (hpos : 0 < d.digits) (hfits : d.digits < 2 ^ 64)
    (hexponent : (leading d).natAbs ≤ maxExponent) (negative : Bool) :
    readMagnitude negative (scientificText true (Nat.toDigits 10 d.digits) (leading d)) =
      readAs negative (scaled? d.digits.toUInt64.toFloat d.exponent) := by
  obtain ⟨hne, hdigits⟩ := isDigits_toDigits d.digits
  have hvalue : digitsValue (Nat.toDigits 10 d.digits) = d.digits := Nat.ofDigitChars_ten_toDigits
  have hleading : leading d = (Nat.toDigits 10 d.digits).length - 1 + d.exponent := rfl
  have hfirst := head?_toDigits_ne hpos.ne'
  obtain ⟨c, rest, hcons⟩ := List.exists_cons_of_ne_nil hne
  rw [hcons] at hdigits hvalue hleading hfirst ⊢
  have hc : c ≠ '0' := fun h => hfirst (congrArg some h)
  have hwhole : IsDigits [c] := by
    refine ⟨List.cons_ne_nil _ _, fun b hb => hdigits b ?_⟩
    rw [List.mem_singleton.1 hb]
    exact List.mem_cons_self ..
  have hzero : [c].head? = some '0' → [c] = ['0'] := fun h => absurd (Option.some.inj h) hc
  have htail : Halts Char.isDigit ('e' :: exponentText (leading d)) := halts_cons (by decide) _
  cases rest with
  | nil =>
    have htext : scientificText true [c] (leading d) = [c] ++ 'e' :: exponentText (leading d) := rfl
    rw [htext, readMagnitude_marked hwhole hzero (by rw [hvalue]; exact hfits), hvalue,
      floatNumber_exponentText hexponent]
    congr 2
    simp only [List.length_singleton] at hleading
    omega
  | cons b rest =>
    have htext : scientificText true (c :: b :: rest) (leading d) =
        [c] ++ '.' :: (b :: rest ++ 'e' :: exponentText (leading d)) := by
      show (c :: '.' :: b :: rest) ++ 'e' :: (if leading d < 0 then ['-'] else ['+']) ++
        Nat.toDigits 10 (leading d).natAbs = _
      rw [exponentText]
      simp only [List.append_assoc, List.cons_append, List.nil_append]
    have hplaces : IsDigits (b :: rest) :=
      ⟨List.cons_ne_nil _ _, fun a ha => hdigits a (List.mem_cons_of_mem c ha)⟩
    have hall : digitsValue ([c] ++ b :: rest) = d.digits := hvalue
    rw [htext, readMagnitude_pointed hwhole hzero hplaces htail (by rw [hall]; exact hfits), hall,
      floatNumber_exponentText hexponent]
    congr 2
    simp only [List.length_cons] at hleading ⊢
    omega

theorem render_stored (d : Decimal) : render .stored d =
    if -5 ≤ leading d ∧ leading d < 16 then
      positionalText true (Nat.toDigits 10 d.digits) (leading d + 1)
    else scientificText true (Nat.toDigits 10 d.digits) (leading d) := by
  show (if (decide (-5 ≤ leading d) && decide (leading d < 16)) = true then _ else _) = _
  simp only [Bool.and_eq_true, decide_eq_true_eq]
  rfl

/-- **A stored decimal is read** as its digits and their exponent, or, if it is a whole number that
is written without exponent, with the zeros behind the digits. -/
theorem exists_significand (hpos : 0 < d.digits) (hfits : d.digits < 2 ^ 64)
    (hexponent : (leading d).natAbs ≤ maxExponent) :
    ∃ n exponent, Significand d n exponent ∧ ∀ negative,
      readMagnitude negative (render .stored d) =
        readAs negative (scaled? n.toUInt64.toFloat exponent) := by
  have hlow := tenPow_leading_le hpos
  -- without an exponent, the zeros that are written belong to the significand
  by_cases hpositional : -5 ≤ leading d ∧ leading d < 16
  · obtain ⟨whole, places, h, htext⟩ := exists_pointed hpos hfits hpositional.2
    refine ⟨digitsValue (whole ++ places), -(places.length : Int),
      ⟨h.pos, h.lt, h.value_eq, fun _ => ?_⟩, fun negative => ?_⟩
    · have := List.length_pos_iff.2 h.isDigits_places.1
      omega
    · have hrender : render .stored d = whole ++ '.' :: (places ++ []) := by
        rw [render_stored, if_pos hpositional, List.append_nil, htext]
      rw [hrender, readMagnitude_pointed h.isDigits_whole h.zero h.isDigits_places (halts_nil _)
        h.lt, floatNumber_nil]
  · refine ⟨d.digits, d.exponent, ⟨hpos, hfits, rfl, fun hsmall => ?_⟩, fun negative => ?_⟩
    · have hpower : (10 : ℚ) ^ leading d < 10 ^ (16 : Int) := hlow.trans_lt hsmall
      have hleading := (zpow_lt_zpow_iff_right₀ (by norm_num : (1 : ℚ) < 10)).1 hpower
      have hlength : 0 < (Nat.toDigits 10 d.digits).length := Nat.length_toDigits_pos
      have hdef : leading d = (Nat.toDigits 10 d.digits).length - 1 + d.exponent := rfl
      omega
    · rw [render_stored, if_neg hpositional, readMagnitude_scientificText hpos hfits hexponent]

end CurveArt.Json
