import CurveArt.Decimal.Reading

/-!
# Numerals

The shape of an unsigned number in a text, said without scanning: digits with at most one point
among or beside them, then perhaps an exponent. Against it stand the two readers: `scanNumber?`
takes the longest numeral off the front of a text, and `number?` gives every numeral a value.

Main results:

* `IsNumeral.scanNumber?_append`: a scan takes at least every numeral that the text begins with.
* `IsNumeral.of_scanNumber?`: what it takes is a numeral.
* `IsNumeral.exists_number?` and `number?_text_of_scanNumber?`: every numeral reads as a double,
  with the value that it has in the middle of a text.
-/

namespace CurveArt.Decimal

/-! ## Shapes -/

def IsDigits (text : List Char) : Prop :=
  text ≠ [] ∧ ∀ c ∈ text, c.isDigit = true

/-- Digits with at most one point, and at least one digit on one side of it. -/
inductive IsMantissa : List Char → Prop where
  | whole {digits : List Char} (h : IsDigits digits) : IsMantissa digits
  | pointed {digits places : List Char} (h : IsDigits digits)
    (h' : ∀ c ∈ places, c.isDigit = true) : IsMantissa (digits ++ '.' :: places)
  | bare {places : List Char} (h : IsDigits places) : IsMantissa ('.' :: places)

def IsMark (c : Char) : Prop :=
  c = 'e' ∨ c = 'E'

def IsSign (sign : List Char) : Prop :=
  sign = [] ∨ sign = ['+'] ∨ sign = ['-']

/-- Nothing, or a mark, perhaps a sign, and digits. -/
inductive IsExponent : List Char → Prop where
  | absent : IsExponent []
  | marked {mark : Char} {sign digits : List Char} (hm : IsMark mark) (hs : IsSign sign)
    (hd : IsDigits digits) : IsExponent (mark :: (sign ++ digits))

def IsNumeral (text : List Char) : Prop :=
  ∃ mantissa exponent, IsMantissa mantissa ∧ IsExponent exponent ∧ text = mantissa ++ exponent

/-- A digit is one of ten characters, so what holds of digits can be decided. -/
theorem exists_digit {c : Char} (h : c.isDigit = true) :
    ∃ n : Fin 10, c = Char.ofNat (48 + n) := by
  simp only [Char.isDigit, Bool.and_eq_true, decide_eq_true_eq, UInt32.le_iff_toNat_le,
    ge_iff_le] at h
  have h0 : ('0' : Char).val.toNat = 48 := rfl
  have h9 : ('9' : Char).val.toNat = 57 := rfl
  refine ⟨⟨c.val.toNat - 48, by omega⟩, ?_⟩
  rw [show 48 + (c.val.toNat - 48) = c.val.toNat by omega]
  exact (Char.ofNat_toNat c).symm

/-! ## Where a test stops -/

/-- The text does not begin with a character that passes the test. -/
def Halts (test : Char → Bool) (text : List Char) : Prop :=
  ∀ c ∈ text.head?, test c = false

theorem halts_nil (test : Char → Bool) : Halts test [] := nofun

theorem halts_cons {test : Char → Bool} {c : Char} (h : test c = false) (rest : List Char) :
    Halts test (c :: rest) := by
  intro d hd
  rwa [← Option.some.inj hd]

theorem halts_dropWhile (test : Char → Bool) (text : List Char) :
    Halts test (text.dropWhile test) := by
  intro c hc
  have h := List.head?_dropWhile_not test text
  rw [hc] at h
  simpa using h

/-- Nothing that passes the test comes first where the test fails. -/
theorem Halts.eq_nil {test : Char → Bool} {front rest : List Char}
    (h : Halts test (front ++ rest)) (hf : ∀ c ∈ front, test c = true) : front = [] := by
  cases front with
  | nil => rfl
  | cons c front =>
    have hc := hf c (List.mem_cons_self ..)
    rw [h c rfl] at hc
    cases hc

theorem takeWhile_append_halts {test : Char → Bool} {front rest : List Char}
    (hf : ∀ c ∈ front, test c = true) (hr : Halts test rest) :
    (front ++ rest).takeWhile test = front := by
  rw [List.takeWhile_append_of_pos hf]
  cases rest with
  | nil => exact List.append_nil front
  | cons c rest => rw [List.takeWhile_cons_of_neg (by simp [hr c rfl]), List.append_nil]

theorem dropWhile_append_halts {test : Char → Bool} {front rest : List Char}
    (hf : ∀ c ∈ front, test c = true) (hr : Halts test rest) :
    (front ++ rest).dropWhile test = rest := by
  rw [List.dropWhile_append_of_pos hf]
  cases rest with
  | nil => rfl
  | cons c rest => rw [List.dropWhile_cons_of_neg (by simp [hr c rfl])]

theorem splitOne_of_halts {test : Char → Bool} {text : List Char} (h : Halts test text) :
    splitOne test text = ([], text) := by
  cases text with
  | nil => rfl
  | cons c rest => simp [splitOne, h c rfl]

theorem splitOne_cons {test : Char → Bool} {c : Char} (h : test c = true) (rest : List Char) :
    splitOne test (c :: rest) = ([c], rest) := by
  simp [splitOne, h]

theorem splitOne_cases (test : Char → Bool) (text : List Char) :
    (Halts test text ∧ splitOne test text = ([], text)) ∨
      ∃ c rest, text = c :: rest ∧ test c = true ∧ splitOne test text = ([c], rest) := by
  cases text with
  | nil => exact .inl ⟨halts_nil test, rfl⟩
  | cons c rest =>
    cases h : test c with
    | false => exact .inl ⟨halts_cons h rest, splitOne_of_halts (halts_cons h rest)⟩
    | true => exact .inr ⟨c, rest, rfl, h, splitOne_cons h rest⟩

/-! ## Exponents -/

/-- The number that a sign and digits write. -/
def signedValue (sign digits : List Char) : Int :=
  if sign = ['-'] then -(digitsValue digits : Int) else digitsValue digits

theorem IsDigits.halts {test : Char → Bool} {digits : List Char} (h : IsDigits digits)
    (htest : ∀ c, c.isDigit = true → test c = false) (rest : List Char) :
    Halts test (digits ++ rest) := by
  obtain ⟨hne, hall⟩ := h
  cases digits with
  | nil => exact absurd rfl hne
  | cons d ds => exact halts_cons (htest d (hall d (List.mem_cons_self ..))) _

theorem isSign_of_isDigit {c : Char} (h : c.isDigit = true) : (c == '+' || c == '-') = false := by
  obtain ⟨n, rfl⟩ := exists_digit h
  revert n
  decide

theorem scanExponent_append {mark : Char} {sign digits rest : List Char} (hm : IsMark mark)
    (hs : IsSign sign) (hd : IsDigits digits) (hr : Halts Char.isDigit rest) :
    scanExponent (mark :: (sign ++ digits) ++ rest) =
      (mark :: (sign ++ digits), signedValue sign digits, rest) := by
  have hmark : (mark == 'e' || mark == 'E') = true := by
    rcases hm with rfl | rfl <;> rfl
  -- without a sign, the digits that follow stop the scan for one
  have hsplit : splitOne (fun c => c == '+' || c == '-') (sign ++ digits ++ rest) =
      (sign, digits ++ rest) := by
    rcases hs with rfl | rfl | rfl
    · exact splitOne_of_halts (hd.halts (fun _ => isSign_of_isDigit) rest)
    · exact splitOne_cons rfl _
    · exact splitOne_cons rfl _
  rw [scanExponent, List.cons_append, splitOne_cons hmark]
  simp only [hsplit, takeWhile_append_halts hd.2 hr, dropWhile_append_halts hd.2 hr,
    List.cons_ne_nil, hd.1, or_self, if_false]
  rfl

/-- A scan for an exponent finds none and takes nothing, or finds one with all its digits. -/
theorem scanExponent_cases (text : List Char) :
    scanExponent text = ([], 0, text) ∨
      ∃ mark sign digits rest, IsMark mark ∧ IsSign sign ∧ IsDigits digits ∧
        Halts Char.isDigit rest ∧ text = mark :: (sign ++ digits) ++ rest := by
  rcases splitOne_cases (fun c => c == 'e' || c == 'E') text with
    ⟨-, hsplit⟩ | ⟨mark, afterMark, rfl, hmark, hsplit⟩
  · exact .inl (by simp [scanExponent, hsplit])
  -- a mark without digits after it is no exponent, and not even the mark is taken
  by_cases hdigits : (splitOne (fun c => c == '+' || c == '-') afterMark).2.takeWhile
      Char.isDigit = []
  · exact .inl (by simp [scanExponent, hsplit, hdigits])
  have hmark' : IsMark mark := by simpa [IsMark] using hmark
  refine .inr ⟨mark, (splitOne (fun c => c == '+' || c == '-') afterMark).1, _, _, hmark', ?_,
    ⟨hdigits, List.all_eq_true.1 List.all_takeWhile⟩, halts_dropWhile Char.isDigit
      (splitOne (fun c => c == '+' || c == '-') afterMark).2, ?_⟩
  · rcases splitOne_cases (fun c => c == '+' || c == '-') afterMark with
      ⟨-, hsign⟩ | ⟨sign, rest, -, hsign, hsplit'⟩
    · rw [hsign]
      exact .inl rfl
    · rw [hsplit']
      rcases Bool.or_eq_true .. ▸ hsign with h | h
      · exact .inr (.inl (by rw [beq_iff_eq.1 h]))
      · exact .inr (.inr (by rw [beq_iff_eq.1 h]))
  · rw [List.cons_append, List.append_assoc, List.takeWhile_append_dropWhile, splitOne_append]

/-! ## Numerals -/

/-- What a scan leaves of a numeral: its pieces are where they belong. -/
structure Written.WellFormed (w : Written) : Prop where
  whole : ∀ c ∈ w.whole, c.isDigit = true
  places : ∀ c ∈ w.places, c.isDigit = true
  point : (w.point = [] ∧ w.places = []) ∨ w.point = ['.']
  nonempty : ¬ (w.whole = [] ∧ w.places = [])
  exponent : (w.exponentText = [] ∧ w.exponent = 0) ∨
    ∃ mark sign digits, IsMark mark ∧ IsSign sign ∧ IsDigits digits ∧
      w.exponentText = mark :: (sign ++ digits) ∧ w.exponent = signedValue sign digits

theorem not_isDigit_point : ('.' : Char).isDigit = false := by decide

theorem IsMark.isDigit {c : Char} (h : IsMark c) : c.isDigit = false := by
  rcases h with rfl | rfl <;> decide

theorem IsMark.ne_point {c : Char} (h : IsMark c) : (c == '.') = false := by
  rcases h with rfl | rfl <;> decide

/-- Digits, perhaps a point and places, and something that goes on with neither: the scan takes the
pieces apart, unless there is no digit, and looks for an exponent in the rest. -/
theorem scanNumber?_pieces {whole point places rest : List Char}
    (hw : ∀ c ∈ whole, c.isDigit = true) (hp : ∀ c ∈ places, c.isDigit = true)
    (hpoint : (point = [] ∧ places = [] ∧ Halts (· == '.') rest) ∨ point = ['.'])
    (hr : Halts Char.isDigit rest) :
    scanNumber? (whole ++ (point ++ (places ++ rest))) =
      if whole = [] ∧ places = [] then none
      else some (⟨whole, point, places, (scanExponent rest).1, (scanExponent rest).2.1⟩,
        (scanExponent rest).2.2) := by
  rcases hpoint with ⟨rfl, rfl, hdot⟩ | rfl
  · -- without a point the scan for places takes nothing, whatever comes next
    have hplaces : rest.takeWhile (fun c : Char => c.isDigit && ([] : List Char) != []) = [] := by
      cases rest <;> simp
    have hrest : rest.dropWhile (fun c : Char => c.isDigit && ([] : List Char) != []) = rest := by
      cases rest <;> simp
    simp only [scanNumber?, List.nil_append, takeWhile_append_halts hw hr,
      dropWhile_append_halts hw hr, splitOne_of_halts hdot, hplaces, hrest]
  · have hstop : Halts Char.isDigit ('.' :: (places ++ rest)) := halts_cons not_isDigit_point _
    have htest : (fun c : Char => c.isDigit && ['.'] != []) = Char.isDigit := by
      funext c
      simp
    have hsplit : splitOne (· == '.') ('.' :: (places ++ rest)) = (['.'], places ++ rest) := by
      simp [splitOne]
    simp only [scanNumber?, List.cons_append, List.nil_append, takeWhile_append_halts hw hstop,
      dropWhile_append_halts hw hstop, hsplit, htest, takeWhile_append_halts hp hr,
      dropWhile_append_halts hp hr]

/-- Every text is digits, perhaps a point and places, and something that goes on with neither. -/
theorem exists_pieces (text : List Char) : ∃ whole point places rest : List Char,
    text = whole ++ (point ++ (places ++ rest)) ∧ (∀ c ∈ whole, c.isDigit = true) ∧
      (∀ c ∈ places, c.isDigit = true) ∧ Halts Char.isDigit rest ∧
      ((point = [] ∧ places = [] ∧ Halts (· == '.') rest) ∨ point = ['.']) := by
  have hwhole : ∀ c ∈ text.takeWhile Char.isDigit, c.isDigit = true :=
    List.all_eq_true.1 List.all_takeWhile
  rcases splitOne_cases (· == '.') (text.dropWhile Char.isDigit) with
    ⟨hdot, -⟩ | ⟨c, rest, hrest, hc, -⟩
  · exact ⟨_, [], [], _, by simp, hwhole, nofun, halts_dropWhile _ _, .inl ⟨rfl, rfl, hdot⟩⟩
  · refine ⟨_, ['.'], rest.takeWhile Char.isDigit, rest.dropWhile Char.isDigit, ?_, hwhole,
      List.all_eq_true.1 List.all_takeWhile, halts_dropWhile _ _, .inr rfl⟩
    rw [List.takeWhile_append_dropWhile, List.singleton_append, ← beq_iff_eq.1 hc, ← hrest,
      List.takeWhile_append_dropWhile]

theorem scanExponent_exponent (text : List Char) :
    ((scanExponent text).1 = [] ∧ (scanExponent text).2.1 = 0) ∨
      ∃ mark sign digits, IsMark mark ∧ IsSign sign ∧ IsDigits digits ∧
        (scanExponent text).1 = mark :: (sign ++ digits) ∧
        (scanExponent text).2.1 = signedValue sign digits := by
  rcases scanExponent_cases text with h | ⟨mark, sign, digits, rest, hm, hs, hd, hr, rfl⟩
  · rw [h]
    exact .inl ⟨rfl, rfl⟩
  · rw [scanExponent_append hm hs hd hr]
    exact .inr ⟨mark, sign, digits, hm, hs, hd, rfl, rfl⟩

theorem wellFormed_of_scanNumber? {text rest : List Char} {w : Written}
    (h : scanNumber? text = some (w, rest)) : w.WellFormed := by
  obtain ⟨whole, point, places, after, rfl, hw, hp, hr, hpoint⟩ := exists_pieces text
  rw [scanNumber?_pieces hw hp hpoint hr] at h
  split at h
  · cases h
  · next hne =>
    obtain ⟨rfl, -⟩ := Prod.mk.inj (Option.some.inj h)
    exact ⟨hw, hp, hpoint.imp_left fun h => ⟨h.1, h.2.1⟩, hne, scanExponent_exponent after⟩

theorem Written.WellFormed.halts_exponentText {w : Written} (h : w.WellFormed)
    {test : Char → Bool} (htest : ∀ c, IsMark c → test c = false) : Halts test w.exponentText := by
  rcases h.exponent with ⟨hnil, -⟩ | ⟨mark, sign, digits, hm, -, -, htext, -⟩
  · rw [hnil]
    exact halts_nil test
  · rw [htext]
    exact halts_cons (htest mark hm) _

theorem Written.WellFormed.scanExponent_exponentText {w : Written} (h : w.WellFormed) :
    scanExponent w.exponentText = (w.exponentText, w.exponent, []) := by
  rcases h.exponent with ⟨hnil, hzero⟩ | ⟨mark, sign, digits, hm, hs, hd, htext, hvalue⟩
  · rw [hnil, hzero]
    rfl
  · rw [htext, hvalue]
    simpa using scanExponent_append hm hs hd (halts_nil Char.isDigit)

/-- By itself a numeral is scanned to its end. -/
theorem Written.WellFormed.scanNumber?_text {w : Written} (h : w.WellFormed) :
    scanNumber? w.text = some (w, []) := by
  have hdigit := h.halts_exponentText fun c hc => hc.isDigit
  have hpoint : (w.point = [] ∧ w.places = [] ∧ Halts (· == '.') w.exponentText) ∨
      w.point = ['.'] :=
    h.point.imp_left fun hp => ⟨hp.1, hp.2, h.halts_exponentText fun c hc => hc.ne_point⟩
  have hscan := scanNumber?_pieces h.whole h.places hpoint hdigit
  rw [if_neg h.nonempty, h.scanExponent_exponentText] at hscan
  rw [Written.text, List.append_assoc, List.append_assoc]
  exact hscan

theorem Written.WellFormed.isNumeral {w : Written} (h : w.WellFormed) : IsNumeral w.text := by
  -- the digits that there must be stand before or after the point
  refine ⟨w.whole ++ w.point ++ w.places, w.exponentText, ?_, ?_, rfl⟩
  · rcases h.point with ⟨hpoint, hplaces⟩ | hpoint
    · rw [hpoint, hplaces, List.append_nil, List.append_nil]
      exact .whole ⟨fun hw => h.nonempty ⟨hw, hplaces⟩, h.whole⟩
    · rw [hpoint, List.append_assoc]
      by_cases hw : w.whole = []
      · rw [hw]
        exact .bare ⟨fun hp => h.nonempty ⟨hw, hp⟩, h.places⟩
      · exact .pointed ⟨hw, h.whole⟩ h.places
  · rcases h.exponent with ⟨hnil, -⟩ | ⟨mark, sign, digits, hm, hs, hd, htext, -⟩
    · rw [hnil]
      exact .absent
    · rw [htext]
      exact .marked hm hs hd

theorem IsNumeral.of_scanNumber? {text rest : List Char} {w : Written}
    (h : scanNumber? text = some (w, rest)) : IsNumeral w.text :=
  (wellFormed_of_scanNumber? h).isNumeral

/-! ## The longest numeral -/

/-- The digits that go on after a text, and what stops them. -/
theorem exists_digits (text : List Char) : ∃ digits rest : List Char, text = digits ++ rest ∧
    (∀ c ∈ digits, c.isDigit = true) ∧ Halts Char.isDigit rest :=
  ⟨_, _, List.takeWhile_append_dropWhile.symm, List.all_eq_true.1 List.all_takeWhile,
    halts_dropWhile Char.isDigit text⟩

theorem forall_digit_append {front back : List Char} (hf : ∀ c ∈ front, c.isDigit = true)
    (hb : ∀ c ∈ back, c.isDigit = true) : ∀ c ∈ front ++ back, c.isDigit = true := by
  intro c hc
  rcases List.mem_append.1 hc with hc | hc
  · exact hf c hc
  · exact hb c hc

/-- If a text begins with digits, a point and places, a scan takes at least these, and no more of
them where an exponent may follow. -/
theorem scanNumber?_pointed {whole places : List Char} (hw : ∀ c ∈ whole, c.isDigit = true)
    (hp : ∀ c ∈ places, c.isDigit = true) (hne : ¬ (whole = [] ∧ places = []))
    (rest : List Char) : ∃ w after, scanNumber? (whole ++ '.' :: places ++ rest) = some (w, after) ∧
      (whole ++ '.' :: places).length ≤ w.text.length ∧
      (Halts Char.isDigit rest → w.text = whole ++ '.' :: places ++ (scanExponent rest).1) := by
  -- digits behind the places are places too
  obtain ⟨digits, after, rfl, hd, hafter⟩ := exists_digits rest
  have hscan := scanNumber?_pieces hw (forall_digit_append hp hd) (.inr rfl) hafter
  rw [if_neg (fun h => hne ⟨h.1, (List.append_eq_nil_iff.1 h.2).1⟩)] at hscan
  refine ⟨_, _, (by simpa using hscan), ?_, fun hrest => ?_⟩
  · simp only [Written.text, List.length_append, List.length_cons, List.length_nil]
    omega
  · have hnil : digits = [] := hrest.eq_nil hd
    simp [Written.text, hnil]

/-- If a text begins with digits, a scan takes at least these, and no more where an exponent may
follow. -/
theorem scanNumber?_whole {whole : List Char} (hw : IsDigits whole) (rest : List Char) :
    ∃ w after, scanNumber? (whole ++ rest) = some (w, after) ∧ whole.length ≤ w.text.length ∧
      (Halts Char.isDigit rest → Halts (· == '.') rest →
        w.text = whole ++ (scanExponent rest).1) := by
  -- the whole digits may go on, and a point may follow them
  obtain ⟨digits, point, places, after, rfl, hd, hp, hafter, hpoint⟩ := exists_pieces rest
  have hscan := scanNumber?_pieces (forall_digit_append hw.2 hd) hp hpoint hafter
  rw [if_neg (fun h => hw.1 (List.append_eq_nil_iff.1 h.1).1)] at hscan
  refine ⟨_, _, (by simpa using hscan), ?_, fun hrest hdot => ?_⟩
  · simp only [Written.text, List.length_append]
    omega
  · obtain rfl : digits = [] := hrest.eq_nil hd
    rcases hpoint with ⟨rfl, rfl, -⟩ | rfl
    · simp [Written.text]
    · have := hdot '.' rfl
      cases this

theorem IsMantissa.scanNumber?_append {mantissa : List Char} (h : IsMantissa mantissa)
    (rest : List Char) : ∃ w after, scanNumber? (mantissa ++ rest) = some (w, after) ∧
      mantissa.length ≤ w.text.length ∧
      (Halts Char.isDigit rest → Halts (· == '.') rest →
        w.text = mantissa ++ (scanExponent rest).1) := by
  cases h with
  | whole h => exact scanNumber?_whole h rest
  | pointed h h' =>
    obtain ⟨w, after, hscan, hlength, htext⟩ :=
      scanNumber?_pointed h.2 h' (fun hnil => h.1 hnil.1) rest
    exact ⟨w, after, hscan, hlength, fun hrest _ => htext hrest⟩
  | bare h =>
    obtain ⟨w, after, hscan, hlength, htext⟩ :=
      @scanNumber?_pointed [] _ nofun h.2 (fun hnil => h.1 hnil.2) rest
    exact ⟨w, after, hscan, hlength, fun hrest _ => htext hrest⟩

/-- If a text begins with a numeral, a scan takes at least that numeral. -/
theorem IsNumeral.scanNumber?_append {numeral : List Char} (h : IsNumeral numeral)
    (rest : List Char) : ∃ w after, scanNumber? (numeral ++ rest) = some (w, after) ∧
      numeral.length ≤ w.text.length := by
  obtain ⟨mantissa, exponent, hmantissa, hexponent, rfl⟩ := h
  rw [List.append_assoc]
  obtain ⟨w, after, hscan, hlength, htext⟩ := hmantissa.scanNumber?_append (exponent ++ rest)
  refine ⟨w, after, hscan, ?_⟩
  cases hexponent with
  | absent => rwa [List.append_nil]
  | @marked mark sign digits hm hs hd =>
    -- the exponent stops the mantissa where it ends, and is itself taken with all its digits
    obtain ⟨more, stop, rfl, hmore, hstop⟩ := exists_digits rest
    have hdigits : IsDigits (digits ++ more) :=
      ⟨List.append_ne_nil_of_left_ne_nil hd.1 more, forall_digit_append hd.2 hmore⟩
    have hexp := scanExponent_append hm hs hdigits hstop
    have hrest : mark :: (sign ++ digits) ++ (more ++ stop) =
        mark :: (sign ++ (digits ++ more)) ++ stop := by simp
    rw [hrest, hexp] at htext
    have hdot : Halts (· == '.') (mark :: (sign ++ (digits ++ more)) ++ stop) :=
      @halts_cons (· == '.') mark hm.ne_point _
    rw [htext (halts_cons hm.isDigit _) hdot]
    simp only [List.length_append, List.length_cons]
    omega

/-! ## Values -/

/-- The first character of a numeral is a digit or a point. -/
def IsStart (c : Char) : Prop :=
  c.isDigit = true ∨ c = '.'

theorem IsDigits.exists_start {digits : List Char} (h : IsDigits digits) (rest : List Char) :
    ∃ c tail, digits ++ rest = c :: tail ∧ IsStart c := by
  obtain ⟨hne, hall⟩ := h
  cases digits with
  | nil => exact absurd rfl hne
  | cons c digits => exact ⟨c, _, rfl, .inl (hall c (List.mem_cons_self ..))⟩

theorem IsNumeral.exists_start {numeral : List Char} (h : IsNumeral numeral) :
    ∃ c rest, numeral = c :: rest ∧ IsStart c := by
  obtain ⟨mantissa, exponent, hmantissa, -, rfl⟩ := h
  cases hmantissa with
  | whole h => exact h.exists_start exponent
  | @pointed digits places h =>
    rw [List.append_assoc]
    exact h.exists_start _
  | bare => exact ⟨'.', _, rfl, .inr rfl⟩

/-- No sign begins with what a numeral begins with, and no letter becomes it in lower case. -/
theorem IsStart.ne {c : Char} (h : IsStart c) :
    c ≠ '-' ∧ c ≠ '+' ∧ c.toLower ≠ 'i' ∧ c.toLower ≠ 'n' := by
  rcases h with h | rfl
  · obtain ⟨n, rfl⟩ := exists_digit h
    revert n
    decide
  · decide

/-- A numeral that is scanned to its end reads as the value of what was scanned. -/
theorem number?_of_scanNumber? {text : List Char} {w : Written}
    (h : scanNumber? text = some (w, [])) : number? text = some w.value := by
  -- nothing is left of the text, so the numeral is all of it
  have htext : w.text = text := by simpa using scanNumber?_text h
  obtain ⟨c, rest, hstart, hc⟩ := (htext ▸ IsNumeral.of_scanNumber? h : IsNumeral text).exists_start
  subst hstart
  obtain ⟨hminus, hplus, hi, hn⟩ := hc.ne
  -- the words that read as numbers too begin with other characters
  have hword : ∀ first tail, c.toLower ≠ first →
      String.ofList ((c :: rest).map Char.toLower) ≠ String.ofList (first :: tail) := by
    intro first tail hfirst hname
    exact hfirst (List.cons.inj (String.ofList_injective hname)).1
  have hinf : String.ofList ((c :: rest).map Char.toLower) ≠ "inf" := hword _ _ hi
  have hinfinity : String.ofList ((c :: rest).map Char.toLower) ≠ "infinity" := hword _ _ hi
  have hnan : String.ofList ((c :: rest).map Char.toLower) ≠ "nan" := hword _ _ hn
  have hunsigned : unsignedNumber? (c :: rest) = some w.value := by
    rw [unsignedNumber?, h]
  rw [number?]
  · simp only [hinf, hinfinity, hnan, or_self, if_false, hunsigned]
    rfl
  · intro rest' hminus'
    exact hminus (List.cons.inj hminus').1
  · intro rest' hplus'
    exact hplus (List.cons.inj hplus').1

/-- What a scan takes reads by itself as the number that was scanned. -/
theorem number?_text_of_scanNumber? {text rest : List Char} {w : Written}
    (h : scanNumber? text = some (w, rest)) : number? w.text = some w.value :=
  number?_of_scanNumber? (wellFormed_of_scanNumber? h).scanNumber?_text

/-- A numeral is scanned to its end. -/
theorem IsNumeral.exists_scanNumber? {numeral : List Char} (h : IsNumeral numeral) :
    ∃ w, scanNumber? numeral = some (w, []) := by
  obtain ⟨w, after, hscan, hlength⟩ := h.scanNumber?_append []
  rw [List.append_nil] at hscan
  have htext := scanNumber?_text hscan
  -- what is taken is no shorter than the numeral, so nothing is left
  have hafter : after = [] := by
    have := congrArg List.length htext
    rw [List.length_append] at this
    exact List.length_eq_zero_iff.1 (by omega)
  rw [hafter] at hscan
  exact ⟨w, hscan⟩

/-- Every numeral has a value. -/
theorem IsNumeral.exists_number? {numeral : List Char} (h : IsNumeral numeral) :
    ∃ value, number? numeral = some value := by
  obtain ⟨w, hscan⟩ := h.exists_scanNumber?
  exact ⟨w.value, number?_of_scanNumber? hscan⟩

end CurveArt.Decimal
