import CurveArt.Decimal.Layout
import CurveArt.Proofs.Binary64.Unsigned
import CurveArt.Proofs.Decimal.Numeral
import CurveArt.Proofs.Decimal.Shortest

/-!
# Numbers in messages read back

A double without a sign is written in a message as the digits of its shortest decimal, with zeros
before or after them and perhaps a point, and never with an exponent. Read again, these digits are
the coefficient of a decimal fraction that is equal to the shortest decimal, so they read as the
double. Infinity is the one value that does not read back: it is written as a word.

Main results:

* `fraction_positional`: the number that a positional text writes.
* `number?_plainText`: a finite double without a sign reads back from its text.
* `plainText_of_infinite`: infinity is written as a word.
* `IsNumeral.unsigned`: the doubles that numerals read as have no sign.
-/

namespace CurveArt.Decimal

open Binary64

/-! ## Digits and zeros -/

theorem digitsValue_eq (digits : List Char) : digitsValue digits = Nat.ofDigitChars 10 digits 0 :=
  rfl

theorem digitsValue_toDigits (n : Nat) : digitsValue (Nat.toDigits 10 n) = n := by
  rw [digitsValue_eq, Nat.ofDigitChars_toDigits (by decide) (by decide)]

theorem isDigits_toDigits (n : Nat) : IsDigits (Nat.toDigits 10 n) :=
  ⟨Nat.toDigits_ne_nil, fun _ h => Nat.isDigit_of_mem_toDigits (by decide) (by decide) h⟩

theorem ofDigitChars_zeros (n init : Nat) :
    Nat.ofDigitChars 10 (List.replicate n '0') init = init * 10 ^ n := by
  induction n generalizing init with
  | zero => exact (mul_one init).symm
  | succ n ih =>
    rw [List.replicate_succ, Nat.ofDigitChars_cons, ih]
    show (10 * init + 0) * 10 ^ n = init * 10 ^ (n + 1)
    ring

theorem digitsValue_append_zeros (digits : List Char) (n : Nat) :
    digitsValue (digits ++ List.replicate n '0') = digitsValue digits * 10 ^ n := by
  rw [digitsValue_eq, Nat.ofDigitChars_append, ofDigitChars_zeros, digitsValue_eq]

theorem digitsValue_zeros_append (n : Nat) (digits : List Char) :
    digitsValue (List.replicate n '0' ++ digits) = digitsValue digits := by
  rw [digitsValue_eq, Nat.ofDigitChars_append, ofDigitChars_zeros, zero_mul, digitsValue_eq]

theorem isDigit_of_mem_zeros {n : Nat} {c : Char} (h : c ∈ List.replicate n '0') :
    c.isDigit = true := by
  rw [(List.mem_replicate.1 h).2]
  decide

/-! ## Positional texts -/

/-- A positional text in its parts. -/
def positional (digits : List Char) (point : Int) : Written :=
  if point ≤ 0 then ⟨['0'], ['.'], List.replicate (-point).toNat '0' ++ digits, [], 0⟩
  else if digits.length ≤ point.toNat then
    ⟨digits ++ List.replicate (point.toNat - digits.length) '0', [], [], [], 0⟩
  else ⟨digits.take point.toNat, ['.'], digits.drop point.toNat, [], 0⟩

theorem positional_text (digits : List Char) (point : Int) :
    (positional digits point).text = positionalText false digits point := by
  rw [positional, positionalText]
  split
  · simp [Written.text]
  · split <;> simp [Written.text]

theorem positional_exponent (digits : List Char) (point : Int) :
    (positional digits point).exponentText = [] ∧ (positional digits point).exponent = 0 := by
  rw [positional]
  split
  · exact ⟨rfl, rfl⟩
  · split <;> exact ⟨rfl, rfl⟩

/-- There is always a digit before the point. -/
theorem positional_whole_ne_nil {digits : List Char} (h : IsDigits digits) (point : Int) :
    (positional digits point).whole ≠ [] := by
  rw [positional]
  split
  · exact List.cons_ne_nil _ _
  · next hpos =>
    split
    · exact List.append_ne_nil_of_left_ne_nil h.1 _
    · intro hnil
      rcases List.take_eq_nil_iff.1 hnil with hzero | hnil
      · omega
      · exact h.1 hnil

theorem positional_wellFormed {digits : List Char} (h : IsDigits digits) (point : Int) :
    (positional digits point).WellFormed := by
  have hwhole := positional_whole_ne_nil h point
  have hnonempty : ¬ ((positional digits point).whole = [] ∧
    (positional digits point).places = []) := fun hnil => hwhole hnil.1
  refine ⟨?_, ?_, ?_, hnonempty, .inl (positional_exponent digits point)⟩
  · rw [positional]
    split
    · exact fun c hc => @isDigit_of_mem_zeros 1 c hc
    · split
      · exact forall_digit_append h.2 fun _ => isDigit_of_mem_zeros
      · exact fun c hc => h.2 c (List.mem_of_mem_take hc)
  · rw [positional]
    split
    · exact forall_digit_append (fun _ => isDigit_of_mem_zeros) h.2
    · split
      · exact nofun
      · exact fun c hc => h.2 c (List.mem_of_mem_drop hc)
  · rw [positional]
    split
    · exact .inr rfl
    · split
      · exact .inl ⟨rfl, rfl⟩
      · exact .inr rfl

/-- The number that is written: the digits as a whole number, with the point moved to its place. -/
def Written.fraction (w : Written) : ℚ :=
  digitsValue (w.whole ++ w.places) / 10 ^ w.places.length

theorem fraction_positional (digits : List Char) (point : Int) :
    (positional digits point).fraction =
      digitsValue digits * 10 ^ (point - digits.length) := by
  rw [Written.fraction, positional]
  split
  · -- zeros in front of the digits change nothing but the number of places
    have hzeros : digitsValue (['0'] ++ (List.replicate (-point).toNat '0' ++ digits)) =
        digitsValue digits := by
      rw [← List.append_assoc]
      exact digitsValue_zeros_append ((-point).toNat + 1) digits
    dsimp only
    rw [hzeros, List.length_append, List.length_replicate, ← zpow_natCast, div_eq_mul_inv,
      ← zpow_neg]
    congr 2
    omega
  · split
    · next hlong =>
      dsimp only
      rw [List.append_nil, digitsValue_append_zeros, List.length_nil, pow_zero, div_one,
        Nat.cast_mul, Nat.cast_pow, ← zpow_natCast]
      congr 2
      omega
    · dsimp only
      rw [List.take_append_drop, List.length_drop, ← zpow_natCast, div_eq_mul_inv, ← zpow_neg]
      congr 2
      omega

/-- A number with digits before the point and no exponent has the value that its fraction rounds
to. -/
theorem Written.value_eq {w : Written} {m : Nat} {q : Int} (hwhole : w.whole ≠ [])
    (hexponent : w.exponent = 0) (hv : RoundsTo w.fraction m q) :
    w.value = ofParts m q hv.canonical.pos := by
  have hlength := List.length_pos_iff.2 hwhole
  have hpos : 0 < digitsValue (w.whole ++ w.places) := by
    rw [pos_iff_ne_zero]
    intro hzero
    have hleast := hv.least_le
    rw [Written.fraction, hzero, Nat.cast_zero, zero_div] at hleast
    have : (0 : ℚ) < 2 ^ (-1075 : Int) := by positivity
    linarith
  -- with a digit before the point the number is not settled by its size
  rw [Written.value, hexponent, zero_sub, nearestDouble, if_neg hpos.ne', if_neg, if_neg (by omega)]
  · have hsign : decide (-(w.places.length : Int) < 0) = decide (0 < w.places.length) := by
      rw [decide_eq_decide]
      omega
    rw [hsign, Int.natAbs_neg, Int.natAbs_natCast]
    exact ofScientific_eq hpos hv
  · rw [List.length_append]
    omega

/-! ## Reading back -/

theorem render_plain (d : Decimal) :
    render .plain d = (positional (Nat.toDigits 10 d.digits)
      ((Nat.toDigits 10 d.digits).length + d.exponent)).text := by
  rw [positional_text, render]
  show positionalText false _ ((Nat.toDigits 10 d.digits).length - 1 + d.exponent + 1) = _
  congr 1
  omega

/-- The text of a decimal reads as the double that the decimal rounds to. -/
theorem number?_render {d : Decimal} {m : Nat} {q : Int}
    (hv : RoundsTo (d.digits * 10 ^ d.exponent) m q) :
    IsNumeral (render .plain d) ∧
      number? (render .plain d) = some (ofParts m q hv.canonical.pos) := by
  have hdigits := isDigits_toDigits d.digits
  set w := positional (Nat.toDigits 10 d.digits) ((Nat.toDigits 10 d.digits).length + d.exponent)
    with hw
  have hwell : w.WellFormed := positional_wellFormed hdigits _
  have hfraction : w.fraction = d.digits * 10 ^ d.exponent := by
    rw [hw, fraction_positional, digitsValue_toDigits, add_sub_cancel_left]
  rw [← hfraction] at hv
  rw [render_plain, ← hw]
  refine ⟨hwell.isNumeral, ?_⟩
  rw [number?_of_scanNumber? hwell.scanNumber?_text,
    Written.value_eq (positional_whole_ne_nil hdigits _) (positional_exponent _ _).2 hv]

/-- **A finite double without a sign reads back** from the text that it has in messages. -/
theorem number?_plainText {x : Float} (hx : Unsigned x) (hfinite : x.isFinite = true) :
    IsNumeral (plainText x).toList ∧ number? (plainText x).toList = some x := by
  have hkind : (unpacked x).isFinite = true := hfinite
  rw [plainText, NumberStyle.render, decode_eq]
  rcases hx.cases with hzero | hinfinite | ⟨m, q, hm, hpositive⟩
  · obtain rfl : x = 0.0 := unpacked_injective hzero
    rw [hzero]
    exact ⟨@IsNumeral.of_scanNumber? ['0'] [] ⟨['0'], [], [], [], 0⟩ rfl, rfl⟩
  · rw [hinfinite] at hkind
    cases hkind
  · have hv := shortest_roundsTo NumberStyle.plain.tie (canonical_of_unpacked hpositive)
    rw [hpositive]
    simp only [partsOf, isMinus, Bool.false_eq_true, if_false, if_neg hm.ne', String.toList_ofList]
    rw [← packed_unpacked x, hpositive]
    exact number?_render hv

theorem plainText_of_infinite {x : Float} (hx : Unsigned x) (hinfinite : x.isFinite = false) :
    plainText x = "inf" := by
  have hkind : (unpacked x).isFinite = false := hinfinite
  rw [plainText, NumberStyle.render, decode_eq]
  rcases hx.cases with hzero | hinfinity | ⟨m, q, hm, hpositive⟩
  · rw [hzero] at hkind
    cases hkind
  · rw [hinfinity]
    rfl
  · rw [hpositive] at hkind
    cases hkind

/-! ## Numerals have no sign -/

theorem unsigned_nearestDouble (coefficient length : Nat) (exponent : Int) :
    Unsigned (nearestDouble coefficient length exponent) := by
  rw [nearestDouble]
  split
  · trivial
  · next hne =>
    split
    · trivial
    · split
      · trivial
      · exact unsigned_ofScientific (Nat.pos_of_ne_zero hne) _ _

/-- What a numeral reads as has no sign. -/
theorem IsNumeral.unsigned {numeral : List Char} {value : Float} (h : IsNumeral numeral)
    (hv : number? numeral = some value) : Unsigned value := by
  obtain ⟨w, hscan⟩ := h.exists_scanNumber?
  rw [number?_of_scanNumber? hscan] at hv
  obtain rfl := Option.some.inj hv
  exact unsigned_nearestDouble _ _ _

end CurveArt.Decimal
