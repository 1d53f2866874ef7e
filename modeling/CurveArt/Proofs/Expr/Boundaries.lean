import CurveArt.Proofs.Expr.Spelling

/-!
# Where a token ends

Whether a token ends at a place depends on what stands behind it: `1` is a number in `1 5` and the
beginning of one in `15` and `1.5`. Behind its first character a token has only name characters,
points and signs, apart from the second star of `**`. So two texts that are cut on their own are cut
in the same way next to each other, as long as the second one begins with none of these and no star
comes directly behind a star.

`CutBefore rest text ts` cuts a text that more text stands behind, and judges every token with all
that follows it. The places that a cut comes to in this way are the boundaries of tokens.

Main results:

* `Cut.cutBefore`: what may stand behind a text without changing its tokens.
* `CutBefore.append`: cuts of neighbouring texts make up a cut.
-/

namespace CurveArt.Spelling

/-! ## Inside a token -/

/-- The characters that a number or a name can have behind its first one. -/
def isInner (c : Char) : Bool :=
  Token.continuesName c || c == '.' || c == '+' || c == '-'

theorem isInner_of_isDigit {c : Char} (h : c.isDigit = true) : isInner c = true := by
  have hname : Token.continuesName c = true := by
    simp [Token.continuesName, Char.isAlphanum, h]
  simp [isInner, hname]

theorem isInner_of_startsName {c : Char} (h : Token.startsName c = true) : isInner c = true := by
  have hname : Token.continuesName c = true := by
    rcases Bool.or_eq_true_iff.1 h with h | h
    · simp [Token.continuesName, Char.isAlphanum, h]
    · simp [Token.continuesName, h]
  simp [isInner, hname]

theorem inner_of_isNumeral {numeral : List Char} (h : Decimal.IsNumeral numeral) :
    ∀ c ∈ numeral, isInner c = true := by
  have hdigits : ∀ {digits : List Char}, (∀ c ∈ digits, c.isDigit = true) →
      ∀ c ∈ digits, isInner c = true :=
    fun h c hc => isInner_of_isDigit (h c hc)
  obtain ⟨mantissa, exponent, hmantissa, hexponent, rfl⟩ := h
  refine List.forall_mem_append.2 ⟨?_, ?_⟩
  · cases hmantissa with
    | whole h => exact hdigits h.2
    | pointed h h' =>
      exact List.forall_mem_append.2 ⟨hdigits h.2, List.forall_mem_cons.2 ⟨rfl, hdigits h'⟩⟩
    | bare h => exact List.forall_mem_cons.2 ⟨rfl, hdigits h.2⟩
  · cases hexponent with
    | absent => exact nofun
    | marked hm hs hd =>
      refine List.forall_mem_cons.2 ⟨?_, List.forall_mem_append.2 ⟨?_, hdigits hd.2⟩⟩
      · rcases hm with rfl | rfl <;> rfl
      · rcases hs with rfl | rfl | rfl <;> simp [isInner]

theorem inner_of_isName {name : List Char} (h : IsName name) : ∀ c ∈ name, isInner c = true := by
  have hword : ∀ {word : List Char}, IsWord word → ∀ c ∈ word, isInner c = true := by
    rintro word ⟨hc, hr⟩
    refine List.forall_mem_cons.2 ⟨isInner_of_startsName hc, ?_⟩
    intro d hd
    simp [isInner, hr d hd]
  induction h with
  | word h => exact hword h
  | dotted h _ ih => exact List.forall_mem_append.2 ⟨hword h, List.forall_mem_cons.2 ⟨rfl, ih⟩⟩

/-- What a token has behind its first character. -/
theorem Spells.inner {c : Char} {rest : List Char} {t : Token} (h : Spells (c :: rest) t) :
    (∀ d ∈ rest, isInner d = true) ∨ c :: rest = ['*', '*'] := by
  generalize htext : c :: rest = text at h
  have hmem : ∀ d ∈ rest, d ∈ text := by
    intro d hd
    rw [← htext]
    exact List.mem_cons_of_mem c hd
  cases h with
  | number h => exact .inl fun d hd => inner_of_isNumeral h d (hmem d hd)
  | name h => exact .inl fun d hd => inner_of_isName h d (hmem d hd)
  | symbol h =>
    rcases symbol_cases h with ⟨rfl, -⟩ | ⟨c', rfl, -, -⟩
    · exact .inr rfl
    · obtain ⟨-, rfl⟩ := List.cons.inj htext
      exact .inl nofun

/-- No spelling runs from a text into what no token has inside. -/
theorem Spells.prefix_of_not_inner {text part rest : List Char} {c : Char} {t : Token}
    (h : Spells text t) (hpre : text <+: part ++ c :: rest) (hpart : part ≠ [])
    (hc : isInner c = false) (hstar : c = '*' → part ≠ ['*']) : text <+: part := by
  rcases List.prefix_or_prefix_of_prefix hpre (List.prefix_append part (c :: rest)) with
    hshort | ⟨more, rfl⟩
  · exact hshort
  · -- a longer spelling would have the character in it
    match more, (List.prefix_append_right_inj part).1 hpre with
    | [], _ => exact (List.append_nil part).symm ▸ List.prefix_refl part
    | d :: more, hmore =>
      obtain ⟨rfl, -⟩ := List.cons_prefix_cons.1 hmore
      obtain ⟨first, tail, rfl⟩ := List.exists_cons_of_ne_nil hpart
      rcases h.inner with hinner | hpower
      · have := hinner d (List.mem_append_right tail (List.mem_cons_self ..))
        rw [hc] at this
        cases this
      · -- only a star behind a single star makes a power of it
        obtain ⟨rfl, htail⟩ := List.cons.inj hpower
        match tail, htail with
        | [], htail => exact absurd rfl (hstar (List.cons.inj htail).1)
        | [_], htail => cases htail

/-! ## What may stand behind a text -/

/-- The text cannot make the last token in front of it longer. -/
def Ends (ts : List Token) (rest : List Char) : Prop :=
  ∀ c ∈ rest.head?, isInner c = false ∧ (c = '*' → ts.getLast? ≠ some .times)

theorem ends_nil (ts : List Token) : Ends ts [] := nofun

theorem ends_cons {c : Char} (hc : isInner c = false) (hstar : c ≠ '*') (ts : List Token)
    (rest : List Char) : Ends ts (c :: rest) := by
  intro d hd
  obtain rfl := Option.some.inj hd
  exact ⟨hc, fun h => absurd h hstar⟩

theorem Ends.of_cons {t : Token} {ts : List Token} {rest : List Char} (h : Ends (t :: ts) rest) :
    Ends ts rest := by
  intro c hc
  obtain ⟨hinner, hlast⟩ := h c hc
  refine ⟨hinner, fun hstar => ?_⟩
  cases ts with
  | nil => exact nofun
  | cons u us => simpa using hlast hstar

theorem not_isInner_of_isSkipped {c : Char} (h : Token.isSkipped c = true) :
    isInner c = false ∧ c ≠ '*' := by
  simp only [Token.isSkipped, Bool.or_eq_true, beq_iff_eq] at h
  rcases h with ((rfl | rfl) | rfl) | rfl <;> decide

/-- A token in front of a text that does not go on with it is the longest one at its place. -/
theorem Spells.length_le {text rest : List Char} {t : Token} (h : Spells text t)
    (hends : Ends [t] rest) :
    ∀ text' t', Spells text' t' → text' <+: text ++ rest → text'.length ≤ text.length := by
  intro text' t' h' hpre
  obtain ⟨first, tail, htext, -⟩ := h.exists_cons
  match rest, hpre with
  | [], hpre => simpa using hpre.length_le
  | c :: rest, hpre =>
    obtain ⟨hc, hlast⟩ := hends c rfl
    refine (h'.prefix_of_not_inner hpre (by simp [htext]) hc fun hc' htimes => ?_).length_le
    subst htimes
    exact hlast hc' (congrArg some (h.unique (@Spells.symbol ['*'] .times (by simp [symbols]))))

/-! ## Cutting with more text behind -/

/-- The text is cut into the tokens, with `rest` behind it. -/
inductive CutBefore (rest : List Char) : List Char → List Token → Prop where
  | nil : CutBefore rest [] []
  | skip {c : Char} {text : List Char} {ts : List Token} (hc : Token.isSkipped c = true)
    (h : CutBefore rest text ts) : CutBefore rest (c :: text) ts
  | token {part text : List Char} {t : Token} {ts : List Token} (ht : Spells part t)
    (hmax : ∀ text' t', Spells text' t' → text' <+: part ++ (text ++ rest) →
      text'.length ≤ part.length)
    (h : CutBefore rest text ts) : CutBefore rest (part ++ text) (t :: ts)

theorem CutBefore.append {text rest : List Char} {ts us : List Token}
    (h : CutBefore rest text ts) (hrest : Cut rest us) : Cut (text ++ rest) (ts ++ us) := by
  induction h with
  | nil => exact hrest
  | skip hc _ ih => exact .skip hc ih
  | token ht hmax _ ih =>
    rw [List.append_assoc]
    exact .token ht hmax ih

/-- What is longest with more text behind it is longest on its own. -/
theorem CutBefore.cut {text rest : List Char} {ts : List Token} (h : CutBefore rest text ts) :
    Cut text ts := by
  induction h with
  | nil => exact .nil
  | skip hc _ ih => exact .skip hc ih
  | token ht hmax _ ih =>
    refine .token ht ?_ ih
    intro text' t' h' hpre
    rw [← List.append_assoc] at hmax
    exact hmax text' t' h' (hpre.trans (List.prefix_append ..))

theorem Spells.cut {text : List Char} {t : Token} (h : Spells text t) : Cut text [t] := by
  have hcut := Cut.token h (h.length_le (ends_nil [t])) .nil
  rwa [List.append_nil] at hcut

/-- Where one text ends and the next begins between two tokens, what is left of the text is cut into
the tokens that are left. -/
theorem CutBefore.exists_cut {text rest : List Char} {ts vs : List Token}
    (h : CutBefore rest text ts) (hcut : Cut (text ++ rest) vs) :
    ∃ us, vs = ts ++ us ∧ Cut rest us := by
  have htokens : tokensOf (text ++ rest) = ts ++ tokensOf rest := by
    clear hcut
    induction h with
    | nil => rfl
    | skip hc _ ih =>
      rw [List.cons_append, tokensOf_skip hc]
      exact ih
    | token ht hmax _ ih =>
      rw [List.append_assoc]
      obtain ⟨c, tail, htext, hc, -, hscan⟩ := scan_of_longest ht hmax
      rw [htext, tokensOf_cons hc, hscan]
      exact congrArg _ ih
  obtain ⟨rfl, hreadable⟩ := cut_iff.1 hcut
  refine ⟨tokensOf rest, htokens, cut_tokensOf rest fun t ht => hreadable t ?_⟩
  rw [htokens]
  exact List.mem_append_right ts ht

theorem Cut.eq_nil {ts : List Token} (h : Cut [] ts) : ts = [] := by
  rw [← (cut_iff.1 h).1, tokensOf_nil]

/-- A text is cut as it is on its own, whatever ends its last token. -/
theorem Cut.cutBefore {text rest : List Char} {ts : List Token} (h : Cut text ts)
    (hends : Ends ts rest) : CutBefore rest text ts := by
  induction h with
  | nil => exact .nil
  | skip hc _ ih => exact .skip hc (ih hends)
  | @token part text t ts ht hmax h ih =>
    refine .token ht ?_ (ih hends.of_cons)
    intro text' t' h' hpre
    rw [← List.append_assoc] at hpre
    obtain ⟨first, tail, hpart, -⟩ := ht.exists_cons
    -- a spelling that stays within the text is no longer than the token, and all of them stay
    refine hmax text' t' h' ?_
    match rest, hends, hpre with
    | [], _, hpre => simpa using hpre
    | c :: rest, hends, hpre =>
      obtain ⟨hc, hlast⟩ := hends c rfl
      refine h'.prefix_of_not_inner hpre (by simp [hpart]) hc fun hc' hstar => ?_
      -- a single star is the only token of its text
      obtain ⟨rfl, rfl⟩ : part = ['*'] ∧ text = [] := by
        rw [hpart, List.cons_append] at hstar
        obtain ⟨rfl, hnil⟩ := List.cons.inj hstar
        obtain ⟨rfl, rfl⟩ := List.append_eq_nil_iff.1 hnil
        exact ⟨hpart, rfl⟩
      obtain rfl := h.eq_nil
      exact hlast hc' (congrArg some (ht.unique (@Spells.symbol ['*'] .times (by simp [symbols]))))

theorem Cut.append {text rest : List Char} {ts us : List Token} (h : Cut text ts)
    (hrest : Cut rest us) (hends : Ends ts rest) : Cut (text ++ rest) (ts ++ us) :=
  (h.cutBefore hends).append hrest

/-- Nothing that is skipped stands in a token, so it can be put in front of any text. -/
theorem Cut.gap {gap rest : List Char} {ts : List Token}
    (hgap : ∀ c ∈ gap, Token.isSkipped c = true) (h : Cut rest ts) : Cut (gap ++ rest) ts := by
  induction gap with
  | nil => exact h
  | cons c gap ih =>
    obtain ⟨hc, hgap⟩ := List.forall_mem_cons.1 hgap
    exact .skip hc (ih hgap)

/-! ## Tokens that end by themselves -/

/-- What is scanned is the token at its place, whatever stands behind it. -/
theorem cutBefore_scan {c : Char} {rest : List Char} (h : (Token.scan c rest).token.IsReadable) :
    CutBefore (Token.scan c rest).rest (Token.scan c rest).text [(Token.scan c rest).token] := by
  have hcut := CutBefore.token (spells_scan h) (fun _ _ => length_le_scan_text)
    (@CutBefore.nil (Token.scan c rest).rest)
  rwa [List.append_nil] at hcut

/-- The characters that are tokens by themselves and begin no longer one. -/
def singles : List Char :=
  ['(', ')', ',', '+', '-', '^']

theorem single_cases {c : Char} (hc : c ∈ singles) : ¬ Decimal.IsStart c ∧
    Token.startsName c = false ∧ Token.isSkipped c = false ∧ c ≠ '*' ∧
      (Token.ofChar c).IsReadable := by
  simp only [singles, List.mem_cons, List.not_mem_nil, or_false] at hc
  rcases hc with rfl | rfl | rfl | rfl | rfl | rfl <;>
    exact ⟨by simp [Decimal.IsStart], by decide, by decide, by decide, trivial⟩

theorem scan_single {c : Char} (hc : c ∈ singles) (rest : List Char) :
    Token.scan c rest = ⟨Token.ofChar c, [c], rest⟩ := by
  obtain ⟨hstart, hname, -, hpower, -⟩ := single_cases hc
  exact scan_of_char (scanNumber?_eq_none hstart rest) hname fun h => hpower h.1

theorem tokensOf_single {c : Char} (hc : c ∈ singles) (rest : List Char) :
    tokensOf (c :: rest) = Token.ofChar c :: tokensOf rest := by
  obtain ⟨-, -, hskipped, -, -⟩ := single_cases hc
  rw [tokensOf_cons hskipped, scan_single hc]

theorem Cut.single {c : Char} (hc : c ∈ singles) {rest : List Char} {ts : List Token}
    (h : Cut rest ts) : Cut (c :: rest) (Token.ofChar c :: ts) := by
  obtain ⟨-, -, -, -, hreadable⟩ := single_cases hc
  have hscan := scan_single hc rest
  have hfirst : CutBefore rest [c] [Token.ofChar c] := by
    have := @cutBefore_scan c rest (by rwa [hscan])
    rwa [hscan] at this
  exact hfirst.append h

theorem Spells.power_cases {text : List Char} (h : Spells text .power) :
    text = ['*', '*'] ∨ text = ['^'] := by
  cases h with
  | symbol h => simpa [symbols] using h

/-- Neither spelling of a power is the beginning of a longer token. -/
theorem cutBefore_power {text : List Char} (h : Spells text .power) (rest : List Char) :
    CutBefore rest text [.power] := by
  rcases h.power_cases with rfl | rfl
  · have hcut := @cutBefore_scan '*' ('*' :: rest) (by rw [scan_power]; trivial)
    rwa [scan_power] at hcut
  · have hscan : Token.scan '^' rest = ⟨.power, ['^'], rest⟩ :=
      scan_single (by simp [singles]) rest
    have hcut := @cutBefore_scan '^' rest (by rw [hscan]; trivial)
    rwa [hscan] at hcut

end CurveArt.Spelling
