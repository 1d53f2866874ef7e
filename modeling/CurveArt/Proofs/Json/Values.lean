import CurveArt.Json.Reading
import CurveArt.Json.Value
import CurveArt.Proofs.Json.Numbers

/-!
# Reading written values

A reader takes a text for a value if it finds the value behind any blanks, leaves what follows the
text, and is not misled by it. The last needs that no number goes on with what follows, as nothing
marks the end of a number. For each type of value, its reader takes the texts that values of the
type are written with, in either layout.

Main results: `takes_text`, `takes_choice`, `takes_boolean`, `takes_float`, `takes_natural`,
`takes_none`, `takes_someNatural` and `takes_pair`, one for each kind of value; and
`readPair_null_first` and `readPair_null_second` for a pair with an absent double.
-/

namespace CurveArt.Json

open Decimal (Halts halts_nil halts_cons exists_digit isDigits_toDigits)

/-- Blanks of JSON and nothing else. -/
def AreBlanks (text : List Char) : Prop :=
  ∀ c ∈ text, isBlank c = true

/-- The reader takes the text for the value, whatever blanks are in front of it. -/
def Takes {α : Type} (read : Reader α) (text : List Char) (value : α) : Prop :=
  ∀ gap rest, AreBlanks gap → Halts continuesNumber rest →
    read (gap ++ (text ++ rest)) = .ok (value, rest)

/-- A double as it is written. -/
def floatText (x : Float) : List Char :=
  (NumberStyle.stored.render x).toList

/-- The text of the double reads as the double. -/
def ReadsBack (x : Float) : Prop :=
  readFloat (floatText x) = .ok (x, [])

/-- The text of the one double reads as the other. -/
def ReadsAs (x y : Float) : Prop :=
  readFloat (floatText x) = .ok (y, [])

variable {α : Type} {read : Reader α} {text gap rest : List Char} {value : α}

/-! ## Blanks -/

theorem areBlanks_nil : AreBlanks [] := nofun

theorem areBlanks_space : AreBlanks [' '] := by
  intro c hc
  rw [List.mem_singleton.1 hc]
  rfl

/-- The end of a line and the blanks that begin the next one. -/
theorem areBlanks_indent (level : Nat) : AreBlanks ('\n' :: indent level) := by
  intro c hc
  rcases List.mem_cons.1 hc with rfl | hc
  · rfl
  · rw [List.eq_of_mem_replicate hc]
    rfl

theorem AreBlanks.halts (hgap : AreBlanks gap) (hrest : Halts continuesNumber rest) :
    Halts continuesNumber (gap ++ rest) := by
  cases gap with
  | nil => exact hrest
  | cons c gap =>
    have hc : isBlank c = true := hgap c (List.mem_cons_self ..)
    simp only [isBlank, Bool.or_eq_true, beq_iff_eq] at hc
    refine halts_cons ?_ _
    rcases hc with ((rfl | rfl) | rfl) | rfl <;> rfl

theorem skipBlanks_gap (hgap : AreBlanks gap) (text : List Char) :
    skipBlanks (gap ++ text) = skipBlanks text :=
  List.dropWhile_append_of_pos hgap

theorem skipBlanks_cons {c : Char} (hc : isBlank c = false) (text : List Char) :
    skipBlanks (c :: text) = c :: text :=
  List.dropWhile_cons_of_neg (by rw [hc]; decide)

/-- Blanks end where something else begins. -/
theorem skipBlanks_front {c : Char} (hgap : AreBlanks gap) (hc : isBlank c = false)
    (text : List Char) : skipBlanks (gap ++ c :: text) = c :: text := by
  rw [skipBlanks_gap hgap, skipBlanks_cons hc]

theorem skipBlanks_skipBlanks (text : List Char) :
    skipBlanks (skipBlanks text) = skipBlanks text := by
  unfold skipBlanks
  exact List.dropWhile_idempotent _ text

theorem skipBlanks_append (h : skipBlanks text ≠ []) (rest : List Char) :
    skipBlanks (text ++ rest) = skipBlanks text ++ rest := by
  unfold skipBlanks at h ⊢
  rw [List.dropWhile_append, if_neg (by rwa [List.isEmpty_iff])]

/-! ## Texts, names and truth values -/

theorem quote_append (content : List Char) (rest : List Char) :
    quote content ++ rest = '"' :: (content.flatMap escapeChar ++ '"' :: rest) := by
  unfold quote
  rw [List.cons_append, List.cons_append, List.append_assoc, List.singleton_append]

theorem takes_text (expected content : String) :
    Takes (readText expected) (quote content.toList) content := by
  intro gap rest hgap _
  unfold readText
  rw [quote_append, skipBlanks_front hgap rfl]
  simp only [unquote?_quote, String.ofList_toList]

theorem readName_quote {known : List (String × α)} {name : String}
    (h : (known.find? fun entry => entry.1 == name).map Prod.snd = some value)
    (rest : List Char) :
    readName known (name.toList.flatMap escapeChar ++ '"' :: rest) = .ok (value, rest) := by
  obtain ⟨entry, hfound, rfl⟩ := Option.map_eq_some_iff.1 h
  unfold readName
  rw [unquote?_quote]
  dsimp only
  rw [String.ofList_toList, hfound]

theorem takes_choice {known : List (String × α)} {name : String}
    (h : (known.find? fun entry => entry.1 == name).map Prod.snd = some value) :
    Takes (readChoice known) (quote name.toList) value := by
  intro gap rest hgap _
  unfold readChoice
  rw [quote_append, skipBlanks_front hgap rfl]
  exact readName_quote h rest

theorem takes_boolean (b : Bool) : Takes readBoolean (Value.boolean b).scalar b := by
  intro gap rest hgap _
  cases b with
  | false =>
    show readBoolean (gap ++ 'f' :: 'a' :: 'l' :: 's' :: 'e' :: rest) = _
    unfold readBoolean
    rw [skipBlanks_front hgap rfl]
    rfl
  | true =>
    show readBoolean (gap ++ 't' :: 'r' :: 'u' :: 'e' :: rest) = _
    unfold readBoolean
    rw [skipBlanks_front hgap rfl]
    rfl

/-! ## Numbers -/

theorem exists_front_of_anyNumber {expected : String} {n : Number}
    (h : readAnyNumber expected text = .ok (n, [])) :
    ∃ c tail, skipBlanks text = c :: tail ∧ (c = '-' ∨ c.isDigit = true) := by
  unfold readAnyNumber at h
  dsimp only at h
  split at h
  case isFalse => cases h
  case isTrue hstarts =>
    unfold startsNumber at hstarts
    split at hstarts
    · rename_i c tail hfront
      exact ⟨c, tail, hfront, by simpa using hstarts⟩
    · cases hstarts

/-- A number is taken for what it reads as on its own. -/
theorem takes_anyNumber {expected : String} {n : Number}
    (h : readAnyNumber expected text = .ok (n, [])) : Takes (readAnyNumber expected) text n := by
  intro gap rest hgap hrest
  obtain ⟨c, tail, hfront, -⟩ := exists_front_of_anyNumber h
  have hne : skipBlanks text ≠ [] := by
    rw [hfront]
    exact List.cons_ne_nil c tail
  unfold readAnyNumber at h ⊢
  dsimp only at h ⊢
  rw [skipBlanks_gap hgap, skipBlanks_append hne]
  rw [hfront] at h ⊢
  split at h
  case isFalse => cases h
  case isTrue hstarts =>
    have hlonger : startsNumber (c :: tail ++ rest) = true := hstarts
    rw [if_pos hlonger]
    exact readNumber_append h hrest

/-- The double that a number stands for. -/
def Number.toFloat : Number → Float
  | .natural value => value.toUInt64.toFloat
  | .negative magnitude => -magnitude.toUInt64.toFloat
  | .float value => value

theorem readFloat_eq (text : List Char) :
    readFloat text = (readAnyNumber "f64" text).map fun found => (found.1.toFloat, found.2) := by
  unfold readFloat
  rcases readAnyNumber "f64" text with e | ⟨_ | _ | _, rest⟩
  · rfl
  · rfl
  · rfl
  · rfl

theorem ReadsAs.exists_number {x y : Float} (h : ReadsAs x y) :
    ∃ n, readAnyNumber "f64" (floatText x) = .ok (n, []) ∧
      n.toFloat = y := by
  unfold ReadsAs at h
  rw [readFloat_eq] at h
  cases hnumber : readAnyNumber "f64" (floatText x) with
  | error e =>
    rw [hnumber] at h
    cases h
  | ok found =>
    rw [hnumber] at h
    obtain ⟨hvalue, hleft⟩ := Prod.mk.inj (Except.ok.inj h)
    exact ⟨found.1, by rw [← hleft], hvalue⟩

theorem takes_float {x y : Float} (h : ReadsAs x y) :
    Takes readFloat (floatText x) y := by
  obtain ⟨n, hnumber, rfl⟩ := h.exists_number
  intro gap rest hgap hrest
  rw [readFloat_eq, takes_anyNumber hnumber gap rest hgap hrest]
  rfl

theorem isBlank_of_isDigit {c : Char} (hc : c.isDigit = true) : isBlank c = false := by
  obtain ⟨d, rfl⟩ := exists_digit hc
  have hall : ∀ d : Fin 10, isBlank (Char.ofNat (48 + d)) = false := by decide
  exact hall d

theorem exists_front_toDigits (m : Nat) :
    ∃ c tail, Nat.toDigits 10 m = c :: tail ∧ c.isDigit = true ∧ isBlank c = false := by
  obtain ⟨hne, hdigits⟩ := isDigits_toDigits m
  obtain ⟨c, tail, hcons⟩ := List.exists_cons_of_ne_nil hne
  have hc : c.isDigit = true := hdigits c (by rw [hcons]; exact List.mem_cons_self ..)
  exact ⟨c, tail, hcons, hc, isBlank_of_isDigit hc⟩

theorem takes_natural {m : Nat} (h : m < significandBound) (expected : String) :
    Takes (readNatural expected) (toString m).toList m := by
  have hnumber : readAnyNumber expected (Nat.toDigits 10 m) = .ok (.natural m, []) := by
    obtain ⟨c, tail, hcons, hdigit, hblank⟩ := exists_front_toDigits m
    have hread := readNumber_toDigits h
    rw [hcons] at hread ⊢
    unfold readAnyNumber
    dsimp only
    rw [skipBlanks_cons hblank]
    have hstarts : startsNumber (c :: tail) = true := by
      show (c == '-' || c.isDigit) = true
      rw [hdigit, Bool.or_true]
    rw [if_pos hstarts, hread]
  intro gap rest hgap hrest
  rw [Nat.toString_eq_ofList_toDigits, String.toList_ofList]
  unfold readNatural
  rw [takes_anyNumber hnumber gap rest hgap hrest]
  rfl

/-! ## Absent values -/

theorem takes_none (read : Reader α) : Takes (readOptional read) Value.null.scalar none := by
  intro gap rest hgap _
  show readOptional read (gap ++ 'n' :: 'u' :: 'l' :: 'l' :: rest) = _
  unfold readOptional
  rw [skipBlanks_front hgap rfl]
  rfl

/-- A value that does not begin as an absent one does. -/
theorem takes_some {c : Char} (h : Takes read (c :: text) value) (hblank : isBlank c = false)
    (hc : c ≠ 'n') : Takes (readOptional read) (c :: text) (some value) := by
  intro gap rest hgap hrest
  unfold readOptional
  rw [List.cons_append, skipBlanks_front hgap hblank]
  have hread := h [] rest areBlanks_nil hrest
  rw [List.nil_append, List.cons_append] at hread
  split
  · rename_i heq
    exact absurd (List.cons.inj heq).1 hc
  · rw [hread]
    rfl

theorem takes_someNatural {m : Nat} (h : m < significandBound) (expected : String) :
    Takes (readOptional (readNatural expected)) (toString m).toList (some m) := by
  have hread := takes_natural h expected
  obtain ⟨c, tail, hcons, hdigit, hblank⟩ := exists_front_toDigits m
  have hc : c ≠ 'n' := by
    rintro rfl
    cases hdigit
  rw [Nat.toString_eq_ofList_toDigits, String.toList_ofList, hcons] at hread ⊢
  exact takes_some hread hblank hc

/-! ## Pairs -/

theorem nextElement?_first {c : Char} {tail : List Char} (h : skipBlanks text = c :: tail)
    (hc : c ≠ ']') : nextElement? true text = .ok (some (skipBlanks text)) := by
  unfold nextElement?
  rw [h]
  split
  · rename_i heq
    cases heq
  · rename_i heq
    exact absurd (List.cons.inj heq).1 hc
  · rename_i heq
    rw [heq]
    rfl

theorem nextElement?_comma {c : Char} {tail : List Char} (h : skipBlanks text = c :: tail)
    (hc : c ≠ ']') : nextElement? false (',' :: text) = .ok (some (skipBlanks text)) := by
  have hfront : skipBlanks (',' :: text) = ',' :: text := skipBlanks_cons rfl text
  unfold nextElement?
  rw [hfront]
  -- the comma is neither the end nor a bracket, and then neither is what follows it
  split
  · rename_i heq
    cases heq
  · rename_i heq
    exact absurd (List.cons.inj heq).1 (by decide)
  · rename_i heq
    obtain ⟨rfl, rfl⟩ := List.cons.inj heq
    rw [if_neg Bool.false_ne_true, if_pos rfl, h]
    split
    · rename_i heq'
      cases heq'
    · rename_i heq'
      exact absurd (List.cons.inj heq').1 hc
    · rfl

theorem readFloat_skipBlanks (text : List Char) : readFloat (skipBlanks text) = readFloat text := by
  unfold readFloat readAnyNumber
  rw [skipBlanks_skipBlanks]

/-- The text of a double as an element of a sequence. -/
theorem ReadsAs.element {x y : Float} (h : ReadsAs x y) (hgap : AreBlanks gap) (rest : List Char) :
    ∃ c tail, skipBlanks (gap ++ (floatText x ++ rest)) = c :: tail ∧
      c ≠ ']' := by
  obtain ⟨n, hnumber, -⟩ := h.exists_number
  obtain ⟨c, tail, hfront, hc⟩ := exists_front_of_anyNumber hnumber
  refine ⟨c, tail ++ rest, ?_, ?_⟩
  · rw [skipBlanks_gap hgap, skipBlanks_append (by rw [hfront]; exact List.cons_ne_nil c tail),
      hfront, List.cons_append]
  · rintro rfl
    rcases hc with hc | hc
    · cases hc
    · cases hc

variable {e : ReadError}

theorem readPair_eq_ok {x y : Float} {inner element element' left left' : List Char}
    (h : skipBlanks text = '[' :: inner)
    (hfirst : nextElement? true inner = .ok (some element))
    (hx : readFloat element = .ok (x, left))
    (hsecond : nextElement? false left = .ok (some element'))
    (hy : readFloat element' = .ok (y, left')) (hclose : closeSequence left' = .ok rest) :
    readPair text = .ok ((x, y), rest) := by
  unfold readPair
  rw [h]
  simp only [hfirst, hx, hsecond, hy, hclose, bind, Except.bind]

theorem readPair_error_first {inner element : List Char} (h : skipBlanks text = '[' :: inner)
    (hfirst : nextElement? true inner = .ok (some element)) (hx : readFloat element = .error e) :
    readPair text = .error e := by
  unfold readPair
  rw [h]
  simp only [hfirst, hx, bind, Except.bind]

theorem readPair_error_second {x : Float} {inner element element' left : List Char}
    (h : skipBlanks text = '[' :: inner)
    (hfirst : nextElement? true inner = .ok (some element))
    (hx : readFloat element = .ok (x, left))
    (hsecond : nextElement? false left = .ok (some element')) (hy : readFloat element' = .error e) :
    readPair text = .error e := by
  unfold readPair
  rw [h]
  simp only [hfirst, hx, hsecond, hy, bind, Except.bind]

/-- Two doubles between brackets, with any blanks between the parts. -/
theorem takes_pair {x y x' y' : Float} (hx : ReadsAs x x') (hy : ReadsAs y y')
    {front middle back : List Char} (hfront : AreBlanks front) (hmiddle : AreBlanks middle)
    (hback : AreBlanks back) :
    Takes readPair ('[' :: (front ++ (floatText x ++ ',' ::
      (middle ++ (floatText y ++ (back ++ [']'])))))) (x', y') := by
  intro gap rest hgap hrest
  simp only [List.cons_append, List.append_assoc, List.nil_append]
  -- what follows the second double, and what follows the first
  have hend : Halts continuesNumber (back ++ ']' :: rest) := hback.halts (halts_cons rfl rest)
  have hcomma (after : List Char) : Halts continuesNumber (',' :: after) := halts_cons rfl after
  obtain ⟨c, tail, helement, hc⟩ := hx.element hfront (',' :: (middle ++
    (floatText y ++ (back ++ ']' :: rest))))
  obtain ⟨c', tail', helement', hc'⟩ := hy.element hmiddle (back ++ ']' :: rest)
  have hread := takes_float hx front _ hfront (hcomma (middle ++
    (floatText y ++ (back ++ ']' :: rest))))
  have hread' := takes_float hy middle _ hmiddle hend
  have hclose : closeSequence (back ++ ']' :: rest) = .ok rest := by
    unfold closeSequence
    rw [skipBlanks_front hback rfl]
    rfl
  rw [← readFloat_skipBlanks] at hread hread'
  exact readPair_eq_ok (skipBlanks_front hgap rfl _) (nextElement?_first helement hc) hread
    (nextElement?_comma helement' hc') hread' hclose

/-- An absent value is no double. -/
theorem readFloat_null (rest : List Char) :
    readFloat (Value.null.scalar ++ rest) = .error (.invalidType .null "f64") :=
  rfl

theorem readPair_null_first {front after : List Char} (hgap : AreBlanks gap)
    (hfront : AreBlanks front) :
    readPair (gap ++ '[' :: (front ++ (Value.null.scalar ++ after))) =
      .error (.invalidType .null "f64") := by
  have hnull : skipBlanks (front ++ (Value.null.scalar ++ after)) = Value.null.scalar ++ after :=
    skipBlanks_front hfront rfl _
  have helement := nextElement?_first hnull (by decide)
  rw [hnull] at helement
  exact readPair_error_first (skipBlanks_front hgap rfl _) helement (readFloat_null after)

theorem readPair_null_second {x x' : Float} (hx : ReadsAs x x') {front middle after : List Char}
    (hgap : AreBlanks gap) (hfront : AreBlanks front) (hmiddle : AreBlanks middle) :
    readPair (gap ++ '[' :: (front ++ (floatText x ++ ',' ::
      (middle ++ (Value.null.scalar ++ after))))) = .error (.invalidType .null "f64") := by
  obtain ⟨c, tail, helement, hc⟩ := hx.element hfront (',' ::
    (middle ++ (Value.null.scalar ++ after)))
  have hcomma : Halts continuesNumber (',' :: (middle ++ (Value.null.scalar ++ after))) :=
    halts_cons rfl _
  have hread := takes_float hx front _ hfront hcomma
  have hnull : skipBlanks (middle ++ (Value.null.scalar ++ after)) = Value.null.scalar ++ after :=
    skipBlanks_front hmiddle rfl _
  have helement' := nextElement?_comma hnull (by decide)
  rw [hnull] at helement'
  rw [← readFloat_skipBlanks] at hread
  exact readPair_error_second (skipBlanks_front hgap rfl _) (nextElement?_first helement hc) hread
    helement' (readFloat_null after)

/-! ## Layouts -/

/-- The text is one of the layouts of the value. -/
inductive Value.Written (v : Value) : List Char → Prop where
  | compact : v.Written v.compact
  | lines (level : Nat) : v.Written (v.lines level)

/-- Layouts differ in sequences and maps only. -/
theorem Value.Written.eq_scalar {v : Value} (h : v.Written text)
    (hsequence : ∀ elements, v ≠ .sequence elements) (hmap : ∀ members, v ≠ .map members) :
    text = v.scalar := by
  cases v with
  | sequence elements => exact absurd rfl (hsequence elements)
  | map members => exact absurd rfl (hmap members)
  | null => cases h <;> rfl
  | boolean b => cases h <;> rfl
  | number digits => cases h <;> rfl
  | text content => cases h <;> rfl

/-- A double, or what stands for it, is written alike in all layouts. -/
theorem Value.ofFloat_layouts (x : Float) (level : Nat) :
    (Value.ofFloat x).compact = (Value.ofFloat x).scalar ∧
      (Value.ofFloat x).lines level = (Value.ofFloat x).scalar := by
  unfold Value.ofFloat
  split <;> exact ⟨rfl, rfl⟩

/-- Two doubles between brackets, in either layout. -/
theorem Value.Written.exists_pair {x y : Float}
    (h : (Value.sequence [.ofFloat x, .ofFloat y]).Written text) :
    ∃ front middle back, AreBlanks front ∧ AreBlanks middle ∧ AreBlanks back ∧
      text = '[' :: (front ++ ((Value.ofFloat x).scalar ++ ',' ::
        (middle ++ ((Value.ofFloat y).scalar ++ (back ++ [']']))))) := by
  cases h with
  | compact =>
    refine ⟨[], [], [], areBlanks_nil, areBlanks_nil, areBlanks_nil, ?_⟩
    show '[' :: ((Value.ofFloat x).compact ++ ',' :: (Value.ofFloat y).compact) ++ [']'] = _
    rw [(Value.ofFloat_layouts x 0).1, (Value.ofFloat_layouts y 0).1]
    simp only [List.cons_append, List.append_assoc, List.nil_append]
  | lines level =>
    refine ⟨'\n' :: indent (level + 1), '\n' :: indent (level + 1), '\n' :: indent level,
      areBlanks_indent _, areBlanks_indent _, areBlanks_indent _, ?_⟩
    show '[' :: ('\n' :: indent (level + 1) ++ (Value.ofFloat x).lines (level + 1) ++ [','] ++
      ('\n' :: indent (level + 1) ++ (Value.ofFloat y).lines (level + 1) ++ [] ++ [])) ++
        '\n' :: indent level ++ [']'] = _
    rw [(Value.ofFloat_layouts x _).2, (Value.ofFloat_layouts y _).2]
    simp only [List.cons_append, List.append_assoc, List.nil_append, List.append_nil]

/-- The members of a map are separated by commas. -/
theorem compactMembers_cons (member : String × Value) (members : List (String × Value)) :
    compactMembers (member :: members) =
      quote member.1.toList ++ ':' :: member.2.compact ++
        members.flatMap fun m => ',' :: (quote m.1.toList ++ ':' :: m.2.compact) := by
  induction members generalizing member with
  | nil => exact (List.append_nil _).symm
  | cons next members ih =>
    show quote member.1.toList ++ ':' :: member.2.compact ++ ',' ::
      compactMembers (next :: members) = _
    rw [ih next, List.flatMap_cons]
    simp only [List.append_assoc, List.cons_append]

theorem memberLines_cons (level : Nat) (member : String × Value)
    (members : List (String × Value)) :
    memberLines level (member :: members) =
      '\n' :: indent (level + 1) ++ (quote member.1.toList ++ ':' :: ' ' ::
        member.2.lines (level + 1)) ++
        members.flatMap fun m => ',' :: ('\n' :: indent (level + 1) ++ (quote m.1.toList ++
          ':' :: ' ' :: m.2.lines (level + 1))) := by
  induction members generalizing member with
  | nil =>
    show '\n' :: indent (level + 1) ++ quote member.1.toList ++ ':' :: ' ' ::
      member.2.lines (level + 1) ++ [] ++ [] = _
    simp only [List.append_assoc, List.cons_append, List.append_nil, List.flatMap_nil]
  | cons next members ih =>
    show '\n' :: indent (level + 1) ++ quote member.1.toList ++ ':' :: ' ' ::
      member.2.lines (level + 1) ++ [','] ++ memberLines level (next :: members) = _
    rw [ih next, List.flatMap_cons]
    simp only [List.append_assoc, List.cons_append, List.nil_append]

end CurveArt.Json
