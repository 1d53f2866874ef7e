import CurveArt.Expr.Token
import CurveArt.Proofs.Decimal.Numeral
import CurveArt.Text.Blank

/-!
# Spelling tokens

Which texts spell which tokens, and how a text is cut into tokens, said without scanning. `Spells`
has one rule for numbers, one for dotted names and one for a table of symbols. `Cut` is maximal
munch: blanks are skipped between tokens, and every token is spelled by the longest text at its
place that spells any token.

Main result: `cut_iff`, the tokens that are scanned are the ones that a text is cut into, unless a
character is met that begins no token; then it cannot be cut at all.
-/

namespace CurveArt

/-- A token that is not a character without a meaning. -/
def Token.IsReadable : Token → Prop
  | .stray _ => False
  | _ => True

namespace Spelling

/-! ## Spellings -/

/-- A name without points. -/
inductive IsWord : List Char → Prop where
  | mk {c : Char} {rest : List Char} (hc : Token.startsName c = true)
    (hr : ∀ d ∈ rest, Token.continuesName d = true) : IsWord (c :: rest)

/-- Words with points between them. -/
inductive IsName : List Char → Prop where
  | word {word : List Char} (h : IsWord word) : IsName word
  | dotted {word name : List Char} (h : IsWord word) (h' : IsName name) :
    IsName (word ++ '.' :: name)

/-- The spellings of the other tokens. A power has two. -/
def symbols : List (List Char × Token) :=
  [(['*', '*'], .power), (['^'], .power), (['*'], .times), (['/'], .divide), (['+'], .plus),
    (['-'], .minus), (['('], .leftParen), ([')'], .rightParen), ([','], .comma)]

/-- The text spells the token. -/
inductive Spells : List Char → Token → Prop where
  | number {text : List Char} {value : Float} (h : Decimal.IsNumeral text)
    (hv : Decimal.number? text = some value) : Spells text (.number value)
  | name {text : List Char} (h : IsName text) : Spells text (.name (String.ofList text))
  | symbol {text : List Char} {t : Token} (h : (text, t) ∈ symbols) : Spells text t

/-- Maximal munch. -/
inductive Cut : List Char → List Token → Prop where
  | nil : Cut [] []
  | skip {c : Char} {rest : List Char} {ts : List Token} (hc : Token.isSkipped c = true)
    (h : Cut rest ts) : Cut (c :: rest) ts
  | token {text rest : List Char} {t : Token} {ts : List Token} (ht : Spells text t)
    (hmax : ∀ text' t', Spells text' t' → text' <+: text ++ rest → text'.length ≤ text.length)
    (h : Cut rest ts) : Cut (text ++ rest) (t :: ts)

/-! ## Names -/

/-- How a name goes on behind its first character. -/
inductive Continues : List Char → Prop where
  | nil : Continues []
  | char {c : Char} {rest : List Char} (hc : Token.continuesName c = true) (h : Continues rest) :
    Continues (c :: rest)
  | point {c : Char} {rest : List Char} (hc : Token.startsName c = true) (h : Continues rest) :
    Continues ('.' :: c :: rest)

theorem Continues.append_word {word rest : List Char}
    (hw : ∀ c ∈ word, Token.continuesName c = true) (h : Continues rest) :
    Continues (word ++ rest) := by
  induction word with
  | nil => exact h
  | cons c word ih =>
    exact .char (hw c (List.mem_cons_self ..)) (ih fun d hd => hw d (List.mem_cons_of_mem _ hd))

/-- A first word can be made longer by a character after its first one. -/
theorem IsName.insert {c d : Char} {rest : List Char} (h : IsName (c :: rest))
    (hd : Token.continuesName d = true) : IsName (c :: d :: rest) := by
  generalize htext : c :: rest = text at h
  cases h with
  | word h =>
    obtain ⟨hc, hr⟩ := h
    obtain ⟨rfl, rfl⟩ := List.cons.inj htext
    exact .word (.mk hc (List.forall_mem_cons.2 ⟨hd, hr⟩))
  | @dotted word name h h' =>
    obtain ⟨hc, hr⟩ := h
    obtain ⟨rfl, rfl⟩ := List.cons.inj htext
    exact @IsName.dotted (_ :: d :: _) _ (.mk hc (List.forall_mem_cons.2 ⟨hd, hr⟩)) h'

theorem isName_iff {text : List Char} :
    IsName text ↔ ∃ c rest, text = c :: rest ∧ Token.startsName c = true ∧ Continues rest := by
  constructor
  · intro h
    induction h with
    | word h =>
      obtain ⟨hc, hr⟩ := h
      refine ⟨_, _, rfl, hc, ?_⟩
      simpa using Continues.append_word hr .nil
    | dotted h _ ih =>
      obtain ⟨hc, hr⟩ := h
      obtain ⟨d, rest, rfl, hd, hrest⟩ := ih
      exact ⟨_, _, rfl, hc, Continues.append_word hr (.point hd hrest)⟩
  · rintro ⟨c, rest, rfl, hc, hrest⟩
    -- the first character moves along: it belongs to the word that is being built
    induction hrest generalizing c with
    | nil => exact .word (.mk hc nofun)
    | char hd _ ih => exact (ih c hc).insert hd
    | @point d rest hd _ ih => exact @IsName.dotted [c] _ (.mk hc nofun) (ih d hd)

theorem continues_scanName (text : List Char) : Continues (Token.scanName text).1 := by
  fun_induction Token.scanName text with
  | case1 c rest hc part after hscan ih =>
    rw [hscan] at ih
    exact .point hc ih
  | case2 => exact .nil
  | case3 c rest _ hc part after hscan ih =>
    rw [hscan] at ih
    exact .char hc ih
  | case4 => exact .nil
  | case5 => exact .nil

/-- A scan takes every continuation of a name that the text begins with. -/
theorem Continues.prefix_scanName {part rest : List Char} (h : Continues part) :
    part.length ≤ (Token.scanName (part ++ rest)).1.length := by
  induction h with
  | nil => exact Nat.zero_le _
  | @char c part hc _ ih =>
    -- only a point is looked at together with what follows it
    have hpoint : c ≠ '.' := by
      rintro rfl
      exact absurd hc (by decide)
    rw [List.cons_append, Token.scanName]
    · simp [hc, ih]
    · intro d tail hd
      exact absurd hd hpoint
  | @point c part hc _ ih =>
    rw [List.cons_append, List.cons_append, Token.scanName]
    simp [hc, ih]

/-! ## One token -/

theorem not_isStart_of_startsName {c : Char} (h : Token.startsName c = true) :
    ¬ Decimal.IsStart c := by
  rintro (hd | rfl)
  · obtain ⟨n, rfl⟩ := Decimal.exists_digit hd
    revert n
    decide
  · exact absurd h (by decide)

/-- What separates tokens is blank. -/
theorem not_isSkipped {c : Char} (h : Text.isBlank c = false) : Token.isSkipped c = false := by
  rw [Bool.eq_false_iff]
  intro hc
  simp only [Token.isSkipped, Bool.or_eq_true, beq_iff_eq] at hc
  rcases hc with ((rfl | rfl) | rfl) | rfl <;> exact absurd h (by decide)

theorem not_isBlank_of_startsName {c : Char} (h : Token.startsName c = true) :
    Text.isBlank c = false := by
  -- a letter lies in one of two ranges
  have hrange : ((decide (c.val ≥ 'A'.val ∧ c.val ≤ 'Z'.val) ||
      decide (c.val ≥ 'a'.val) && decide (c.val ≤ 'z'.val)) || c == '_') = true := h
  simp only [Bool.or_eq_true, Bool.and_eq_true, decide_eq_true_eq, beq_iff_eq, ge_iff_le,
    UInt32.le_iff_toNat_le] at hrange
  have hA : ('A' : Char).val.toNat = 65 := rfl
  have hZ : ('Z' : Char).val.toNat = 90 := rfl
  have ha : ('a' : Char).val.toNat = 97 := rfl
  have hz : ('z' : Char).val.toNat = 122 := rfl
  have hc : c.toNat = c.val.toNat := rfl
  rcases hrange with hrange | rfl
  · -- no letter is in one of the ranges of blanks
    rw [Bool.eq_false_iff]
    intro hblank
    simp only [Text.isBlank, Bool.or_eq_true, Bool.and_eq_true, decide_eq_true_eq,
      beq_iff_eq] at hblank
    omega
  · decide

theorem not_isBlank_of_isStart {c : Char} (h : Decimal.IsStart c) : Text.isBlank c = false := by
  rcases h with hd | rfl
  · obtain ⟨n, rfl⟩ := Decimal.exists_digit hd
    clear hd
    revert n
    decide
  · decide

/-- A symbol begins with a character that neither a number nor a name nor a blank begins with. -/
theorem symbol_head {text : List Char} {t : Token} (h : (text, t) ∈ symbols) :
    ∃ c rest, text = c :: rest ∧ ¬ Decimal.IsStart c ∧ Token.startsName c = false ∧
      Text.isBlank c = false := by
  simp only [symbols, List.mem_cons, Prod.mk.injEq, List.not_mem_nil, or_false] at h
  rcases h with h | h | h | h | h | h | h | h | h <;>
    exact ⟨_, _, h.1, by simp [Decimal.IsStart], by decide, by decide⟩

theorem scanNumber?_eq_none {c : Char} (h : ¬ Decimal.IsStart c) (rest : List Char) :
    Decimal.scanNumber? (c :: rest) = none := by
  cases hscan : Decimal.scanNumber? (c :: rest) with
  | none => rfl
  | some scanned =>
    obtain ⟨w, after⟩ := scanned
    obtain ⟨d, tail, htext, hd⟩ := (Decimal.IsNumeral.of_scanNumber? hscan).exists_start
    have := Decimal.scanNumber?_text hscan
    rw [htext] at this
    exact absurd ((List.cons.inj this).1 ▸ hd) h

theorem scan_of_number {c : Char} {rest after : List Char} {w : Decimal.Written}
    (h : Decimal.scanNumber? (c :: rest) = some (w, after)) :
    Token.scan c rest = ⟨.number w.value, w.text, after⟩ := by
  unfold Token.scan
  rw [h]

theorem scan_of_startsName {c : Char} (h : Token.startsName c = true) (rest : List Char) :
    Token.scan c rest = ⟨.name (String.ofList (c :: (Token.scanName rest).1)),
      c :: (Token.scanName rest).1, (Token.scanName rest).2⟩ := by
  unfold Token.scan
  rw [scanNumber?_eq_none (not_isStart_of_startsName h)]
  simp only [h, if_true]

theorem scan_power (after : List Char) :
    Token.scan '*' ('*' :: after) = ⟨.power, ['*', '*'], after⟩ := by
  unfold Token.scan
  rw [scanNumber?_eq_none (by simp [Decimal.IsStart])]
  rfl

theorem scan_of_char {c : Char} {rest : List Char} (h : Decimal.scanNumber? (c :: rest) = none)
    (hc : Token.startsName c = false) (hpower : ¬ (c = '*' ∧ rest.head? = some '*')) :
    Token.scan c rest = ⟨Token.ofChar c, [c], rest⟩ := by
  unfold Token.scan
  rw [h]
  simp only [hc, Bool.false_eq_true, if_false]
  split
  · exact absurd ⟨rfl, rfl⟩ hpower
  · rfl

theorem ofChar_mem_symbols {c : Char} (h : (Token.ofChar c).IsReadable) :
    ([c], Token.ofChar c) ∈ symbols := by
  revert h
  unfold Token.ofChar
  split <;> simp [symbols, Token.IsReadable]

theorem symbol_cases {text : List Char} {t : Token} (h : (text, t) ∈ symbols) :
    (text = ['*', '*'] ∧ t = .power) ∨
      ∃ c, text = [c] ∧ t = Token.ofChar c ∧ (Token.ofChar c).IsReadable := by
  simp only [symbols, List.mem_cons, Prod.mk.injEq, List.not_mem_nil, or_false] at h
  rcases h with h | h | h | h | h | h | h | h | h
  · exact .inl h
  all_goals exact .inr ⟨_, h.1, h.2, trivial⟩

/-- What a scan takes is spelled as the scanned token, unless that has no meaning. -/
theorem spells_scan {c : Char} {rest : List Char} (h : (Token.scan c rest).token.IsReadable) :
    Spells (Token.scan c rest).text (Token.scan c rest).token := by
  -- the scan tries a number first, then a name, then the one symbol of two characters
  cases hscan : Decimal.scanNumber? (c :: rest) with
  | some scanned =>
    obtain ⟨w, after⟩ := scanned
    rw [scan_of_number hscan]
    exact .number (.of_scanNumber? hscan) (Decimal.number?_text_of_scanNumber? hscan)
  | none =>
    cases hc : Token.startsName c with
    | true =>
      rw [scan_of_startsName hc]
      exact .name (isName_iff.2 ⟨c, _, rfl, hc, continues_scanName rest⟩)
    | false =>
      by_cases hpower : c = '*' ∧ rest.head? = some '*'
      · obtain ⟨rfl, hhead⟩ := hpower
        obtain ⟨after, rfl⟩ := List.head?_eq_some_iff.1 hhead
        rw [scan_power]
        exact .symbol (by simp [symbols])
      · rw [scan_of_char hscan hc hpower] at h ⊢
        exact .symbol (ofChar_mem_symbols h)

/-- A scan takes at least every spelling of a token that the text begins with. -/
theorem Spells.length_le_scan {c : Char} {rest text : List Char} {t : Token} (h : Spells text t)
    (hpre : text <+: c :: rest) : (Token.scan c rest).token.IsReadable ∧
      text.length ≤ (Token.scan c rest).text.length := by
  obtain ⟨after, hafter⟩ := hpre
  -- what the spelling begins with decides how the scan goes
  cases h with
  | number h =>
    obtain ⟨w, after', hscan, hlength⟩ := h.scanNumber?_append after
    rw [hafter] at hscan
    rw [scan_of_number hscan]
    exact ⟨trivial, hlength⟩
  | name h =>
    obtain ⟨d, part, rfl, hd, hpart⟩ := isName_iff.1 h
    obtain ⟨rfl, rfl⟩ := List.cons.inj hafter
    rw [scan_of_startsName hd]
    exact ⟨trivial, Nat.succ_le_succ hpart.prefix_scanName⟩
  | symbol h =>
    obtain ⟨d, part, rfl, hstart, hname, -⟩ := symbol_head h
    rw [List.cons_append] at hafter
    obtain ⟨rfl, rfl⟩ := List.cons.inj hafter
    rcases symbol_cases h with ⟨htext, -⟩ | ⟨d', htext, -, hreadable⟩
    · obtain ⟨rfl, rfl⟩ := List.cons.inj htext
      rw [List.singleton_append, scan_power]
      exact ⟨trivial, Nat.le_refl 2⟩
    · -- one character is no more than what any scan takes, and its scan has a meaning
      obtain ⟨rfl, rfl⟩ := List.cons.inj htext
      refine ⟨?_, List.length_pos_iff.2 (Token.scan_text_ne_nil _ _)⟩
      rw [List.nil_append]
      by_cases hpower : d = '*' ∧ after.head? = some '*'
      · obtain ⟨rfl, hhead⟩ := hpower
        obtain ⟨after', hafter'⟩ := List.head?_eq_some_iff.1 hhead
        rw [hafter', scan_power]
        trivial
      · rw [scan_of_char (scanNumber?_eq_none hstart _) hname hpower]
        exact hreadable

/-! ## The cut of a text -/

/-- A spelling begins with something that is not blank. -/
theorem Spells.exists_cons {text : List Char} {t : Token} (h : Spells text t) :
    ∃ c rest, text = c :: rest ∧ Text.isBlank c = false := by
  cases h with
  | number h =>
    obtain ⟨c, rest, rfl, hc⟩ := h.exists_start
    exact ⟨c, rest, rfl, not_isBlank_of_isStart hc⟩
  | name h =>
    obtain ⟨c, rest, rfl, hc, -⟩ := isName_iff.1 h
    exact ⟨c, rest, rfl, not_isBlank_of_startsName hc⟩
  | symbol h =>
    obtain ⟨c, rest, rfl, -, -, hc⟩ := symbol_head h
    exact ⟨c, rest, rfl, hc⟩

/-- A text spells at most one token. -/
theorem Spells.unique {text : List Char} {t t' : Token} (h : Spells text t)
    (h' : Spells text t') : t = t' := by
  -- numbers, names and symbols differ in their first characters
  cases h with
  | number h hv =>
    obtain ⟨c, rest, rfl, hc⟩ := h.exists_start
    cases h' with
    | number _ hv' => rw [Option.some.inj (hv.symm.trans hv')]
    | name h' =>
      obtain ⟨d, _, htext, hd, -⟩ := isName_iff.1 h'
      exact absurd ((List.cons.inj htext).1 ▸ hc) (not_isStart_of_startsName hd)
    | symbol h' =>
      obtain ⟨d, _, htext, hd, -, -⟩ := symbol_head h'
      exact absurd ((List.cons.inj htext).1 ▸ hc) hd
  | name h =>
    obtain ⟨c, rest, rfl, hc, -⟩ := isName_iff.1 h
    cases h' with
    | number h' =>
      obtain ⟨d, _, htext, hd⟩ := h'.exists_start
      exact absurd ((List.cons.inj htext).1 ▸ hd) (not_isStart_of_startsName hc)
    | name => rfl
    | symbol h' =>
      obtain ⟨d, _, htext, -, hd, -⟩ := symbol_head h'
      rw [(List.cons.inj htext).1, hd] at hc
      cases hc
  | symbol h =>
    obtain ⟨c, rest, rfl, hstart, hc, -⟩ := symbol_head h
    cases h' with
    | number h' =>
      obtain ⟨d, _, htext, hd⟩ := h'.exists_start
      exact absurd ((List.cons.inj htext).1 ▸ hd) hstart
    | name h' =>
      obtain ⟨d, _, htext, hd, -⟩ := isName_iff.1 h'
      rw [← (List.cons.inj htext).1, hc] at hd
      cases hd
    | symbol h' =>
      -- among the symbols, the length and the character decide
      rcases symbol_cases h with ⟨htext, rfl⟩ | ⟨d, htext, rfl, -⟩ <;>
        rcases symbol_cases h' with ⟨htext', rfl⟩ | ⟨d', htext', rfl, -⟩
      · rfl
      · rw [htext] at htext'
        cases htext'
      · rw [htext] at htext'
        cases htext'
      · rw [htext] at htext'
        obtain ⟨rfl, -⟩ := List.cons.inj htext'
        rfl

/-- The tokens of a text, as they are scanned. -/
def tokensOf (text : List Char) : List Token :=
  (lexemes 0 text).map Lexeme.token

/-- Where a text begins does not matter to its tokens. -/
theorem map_token_lexemes (offset offset' : Nat) (text : List Char) :
    (lexemes offset text).map Lexeme.token = (lexemes offset' text).map Lexeme.token := by
  fun_induction lexemes offset text generalizing offset' with
  | case1 => rw [lexemes]
  | case2 offset c rest hc ih => rw [ih (offset' + 1), lexemes, if_pos hc]
  | case3 offset c rest hc scanned ih =>
    rw [lexemes, if_neg hc, List.map_cons, List.map_cons, ih]

theorem tokensOf_nil : tokensOf [] = [] := by
  rw [tokensOf, lexemes]
  rfl

theorem tokensOf_skip {c : Char} (h : Token.isSkipped c = true) (rest : List Char) :
    tokensOf (c :: rest) = tokensOf rest := by
  rw [tokensOf, lexemes, if_pos h]
  exact map_token_lexemes _ _ rest

theorem tokensOf_cons {c : Char} (h : Token.isSkipped c = false) (rest : List Char) :
    tokensOf (c :: rest) = (Token.scan c rest).token :: tokensOf (Token.scan c rest).rest := by
  rw [tokensOf, lexemes, if_neg (by simp [h]), List.map_cons]
  exact congrArg _ (map_token_lexemes _ _ _)

/-- The longest spelling at a place is the one that is scanned. -/
theorem scan_of_longest {text rest : List Char} {t : Token} (ht : Spells text t)
    (hmax : ∀ text' t', Spells text' t' → text' <+: text ++ rest → text'.length ≤ text.length) :
    ∃ c tail, text ++ rest = c :: tail ∧ Token.isSkipped c = false ∧ t.IsReadable ∧
      Token.scan c tail = ⟨t, text, rest⟩ := by
  obtain ⟨c, tail, rfl, hc⟩ := ht.exists_cons
  refine ⟨c, tail ++ rest, rfl, not_isSkipped hc, ?_⟩
  have hpre : c :: tail <+: c :: (tail ++ rest) := ⟨rest, rfl⟩
  obtain ⟨hreadable, hlength⟩ := ht.length_le_scan hpre
  -- the scan takes at least the longest spelling, and what it takes is a spelling
  have hspells := spells_scan hreadable
  have htext := Token.scan_text c (tail ++ rest)
  have hlength' := hmax _ _ hspells ⟨_, htext⟩
  rcases hscan : Token.scan c (tail ++ rest) with ⟨t', text', rest'⟩
  rw [hscan] at hreadable hlength hspells htext hlength'
  -- so both are equally long, and begin the same text
  obtain ⟨rfl, rfl⟩ := List.append_inj (show text' ++ rest' = (c :: tail) ++ rest from htext)
    (Nat.le_antisymm hlength' hlength)
  obtain rfl := hspells.unique ht
  exact ⟨hreadable, rfl⟩

/-- A scanned token is spelled by the longest text at its place. -/
theorem length_le_scan_text {c : Char} {rest text : List Char} {t : Token} (h : Spells text t)
    (hpre : text <+: (Token.scan c rest).text ++ (Token.scan c rest).rest) :
    text.length ≤ (Token.scan c rest).text.length := by
  rw [Token.scan_text] at hpre
  exact (h.length_le_scan hpre).2

theorem cut_tokensOf (text : List Char) (h : ∀ t ∈ tokensOf text, t.IsReadable) :
    Cut text (tokensOf text) := by
  match text with
  | [] =>
    rw [tokensOf_nil]
    exact .nil
  | c :: rest =>
    cases hc : Token.isSkipped c with
    | true =>
      rw [tokensOf_skip hc] at h ⊢
      exact .skip hc (cut_tokensOf rest h)
    | false =>
      rw [tokensOf_cons hc] at h ⊢
      obtain ⟨hreadable, hrest⟩ := List.forall_mem_cons.1 h
      -- the cut goes on behind the token, where the text is shorter
      have hlt := Token.scan_rest_length_lt c rest
      have hcut := Cut.token (spells_scan hreadable) (fun _ _ => length_le_scan_text)
        (cut_tokensOf (Token.scan c rest).rest hrest)
      rwa [Token.scan_text] at hcut
termination_by text.length

/-- A text is cut into the tokens that are scanned, if all of them mean something; otherwise it
cannot be cut. -/
theorem cut_iff {text : List Char} {ts : List Token} :
    Cut text ts ↔ tokensOf text = ts ∧ ∀ t ∈ ts, t.IsReadable := by
  constructor
  · intro h
    induction h with
    | nil => exact ⟨tokensOf_nil, nofun⟩
    | skip hc _ ih => exact ⟨(tokensOf_skip hc _).trans ih.1, ih.2⟩
    | token ht hmax _ ih =>
      -- what is longest is what is scanned, and both go on with the same rest
      obtain ⟨c, tail, htext, hc, hreadable, hscan⟩ := scan_of_longest ht hmax
      rw [htext, tokensOf_cons hc, hscan, ih.1]
      exact ⟨rfl, List.forall_mem_cons.2 ⟨hreadable, ih.2⟩⟩
  · rintro ⟨rfl, hreadable⟩
    exact cut_tokensOf text hreadable

end Spelling

end CurveArt
