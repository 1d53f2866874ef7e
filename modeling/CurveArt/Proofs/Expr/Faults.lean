import CurveArt.Proofs.Expr.Depth
import Mathlib.Data.List.Induction

/-!
# Where a text goes wrong

A text that the grammar does not derive is refused at one place. Up to there it could still have
become an expression, whatever the parser has open; with the token that stands there it no longer
can. So the place is as far to the right as any reader could put it, and no further.

Two facts carry this. Every state of the parser can be completed: a name where an operand has to
follow, and a closing parenthesis for each one that is open. And the parser reads every derivation,
so what a state refuses is refused by every derivation that begins with the same tokens.

Main results:

* `Parser.exists_completion`: every state can be completed to an expression.
* `Parser.exists_refuses`: where a run of the parser stops, the text in front of that place has been
  read, and what follows is refused.
* `Expr.ofText_unreadable`: what the column of an error says about the text.
-/

namespace CurveArt

open Grammar Spelling

namespace Parser

/-! ## Every state can be completed -/

/-- Closed all the way, an operand takes everything that is open up to the innermost parenthesis. -/
theorem reduce_zero (tree : ParseTree) (stack : List Frame) :
    (∃ whole, reduce 0 tree stack = (whole, []) ∧ stack.countP Frame.isParenthesis = 0) ∨
      ∃ inner frame open', reduce 0 tree stack = (inner, frame :: open') ∧
        frame.isParenthesis = true ∧
        stack.countP Frame.isParenthesis = open'.countP Frame.isParenthesis + 1 := by
  induction stack generalizing tree with
  | nil => exact .inl ⟨tree, rfl, rfl⟩
  | cons frame stack ih =>
    cases frame with
    | group => exact .inr ⟨tree, .group, stack, rfl, rfl, List.countP_cons_of_pos rfl⟩
    | call function reversed =>
      exact .inr ⟨tree, .call function reversed, stack, rfl, rfl, List.countP_cons_of_pos rfl⟩
    | sign sign =>
      rw [reduce_sign (Nat.zero_le 2), List.countP_cons_of_neg (by simp [Frame.isParenthesis])]
      exact ih (.signed sign tree)
    | left op operand =>
      rw [reduce_left (Nat.zero_le _), List.countP_cons_of_neg (by simp [Frame.isParenthesis])]
      exact ih (.binary op operand tree)

/-- The tree of the innermost parentheses is an operand of what stands around them. -/
theorem close?_eq_some {tree inner : ParseTree} {stack open' : List Frame} {frame : Frame}
    (hreduce : reduce 0 tree stack = (inner, frame :: open'))
    (hframe : frame.isParenthesis = true) :
    ∃ closed, close? tree stack = some (.operator closed open') := by
  rw [close?, hreduce]
  cases frame with
  | group => exact ⟨_, rfl⟩
  | call function reversed => exact ⟨_, rfl⟩
  | sign sign => cases hframe
  | left op operand => cases hframe

/-- Behind an operand, closing all parentheses that are open completes the expression. -/
theorem Holds.completed {σ : State} {tree : ParseTree} {stack : List Frame}
    (h : Holds σ tree stack) : ∃ whole, (steps? σ (List.replicate
      (stack.countP Frame.isParenthesis) .rightParen)).bind finish? = some whole := by
  -- one parenthesis after the other, from the innermost one
  generalize hcount : stack.countP Frame.isParenthesis = n
  induction n generalizing σ tree stack with
  | zero =>
    rcases reduce_zero tree stack with ⟨whole, hreduce, -⟩ | ⟨_, _, _, -, -, hcount'⟩
    · refine ⟨whole, ?_⟩
      rw [List.replicate_zero, steps?_nil, Option.bind_some, h.finish?_eq, finishOperand?, hreduce]
    · omega
  | succ n ih =>
    rcases reduce_zero tree stack with ⟨_, -, hcount'⟩ | ⟨inner, frame, open', hreduce, hframe, hn⟩
    · omega
    · obtain ⟨closed, hclose⟩ := close?_eq_some hreduce hframe
      obtain ⟨whole, hwhole⟩ := ih (.operator closed open') (by omega)
      refine ⟨whole, ?_⟩
      rw [List.replicate_succ, steps?_cons, h.step?_rightParen, hclose]
      exact hwhole

theorem cut_closers (n : Nat) :
    Cut (List.replicate n ')') (List.replicate n .rightParen) := by
  induction n with
  | zero => exact .nil
  | succ n ih => exact ih.single (by simp [singles])

theorem ends_closers (ts : List Token) (n : Nat) : Ends ts (List.replicate n ')') := by
  cases n with
  | zero => exact ends_nil ts
  | succ n => exact ends_cons rfl (by decide) ts _

/-- Every state can be completed to an expression, behind any text. -/
theorem exists_completion (σ : State) : ∃ more us, Cut more us ∧ (∀ ts, Ends ts more) ∧
    ∃ tree, (steps? σ us).bind finish? = some tree := by
  -- behind an operand only parentheses are missing, and otherwise an operand in front of them
  have hholds : ∀ {σ' : State} {tree : ParseTree} {stack : List Frame}, Holds σ' tree stack →
      ∃ more us, Cut more us ∧ (∀ ts, Ends ts more) ∧
        ∃ whole, (steps? σ' us).bind finish? = some whole := by
    intro σ' tree stack h
    exact ⟨_, _, cut_closers _, fun ts => ends_closers ts _, h.completed⟩
  cases σ with
  | named name stack => exact hholds (.named name stack)
  | operator tree stack => exact hholds (.operator tree stack)
  | operand fresh stack =>
    obtain ⟨whole, hwhole⟩ := (Holds.named "x" stack).completed
    have hname : Spells ['x'] (.name "x") := .name (.word (.mk (by decide) nofun))
    have hcut := hname.cut.append (cut_closers (stack.countP Frame.isParenthesis))
      (ends_closers _ _)
    -- a space keeps the name apart from what has been read
    exact ⟨' ' :: _, _, .skip rfl hcut, fun ts => ends_cons rfl (by decide) ts _, whole, hwhole⟩

/-! ## What a state refuses -/

/-- Tokens that have been read and cannot go on with one more begin no derivation. -/
theorem not_prefix_of_step?_eq_none {ts : List Token} {t : Token} {σ : State}
    (hsteps : steps? start ts = some σ) (hstep : step? σ t = none) (d : Derivation .sum) :
    ¬ ts ++ [t] <+: d.tokens := by
  rintro ⟨more, hmore⟩
  have haccepted := accepted?_tokens d
  rw [← hmore, List.append_assoc, List.singleton_append, accepted?, steps?_append _ hsteps,
    steps?_cons, hstep] at haccepted
  cases haccepted

theorem tokens_ne_of_finish?_eq_none {ts : List Token} {σ : State}
    (hsteps : steps? start ts = some σ) (hfinish : finish? σ = none) (d : Derivation .sum) :
    d.tokens ≠ ts := by
  rintro rfl
  have haccepted := accepted?_tokens d
  rw [accepted?, hsteps, Option.bind_some, hfinish] at haccepted
  cases haccepted

/-- A character without a meaning can stand nowhere. -/
theorem isReadable_of_step? {σ σ' : State} {t : Token} (h : step? σ t = some σ') :
    t.IsReadable := by
  cases t with
  | stray c => cases σ <;> cases h
  | _ => trivial

/-! ## Where a run stops -/

/-- The state refuses the text: it ends too early, or the token at its front cannot stand there. -/
inductive Refuses (σ : State) : List Char → Prop where
  | ended (h : finish? σ = none) : Refuses σ []
  | token {c : Char} {rest : List Char} (hc : Token.isSkipped c = false)
    (h : step? σ (Token.scan c rest).token = none) : Refuses σ (c :: rest)

/-- A run that fails has read the text up to some place, and refuses what follows. -/
theorem exists_refuses {offset : Nat} {text : List Char} {σ : State} {failure : Failure}
    (h : run (offset + text.length) σ (lexemes offset text) = .error failure) :
    ∃ before rest ts σ', text = before ++ rest ∧ failure.offset = offset + before.length ∧
      CutBefore rest before ts ∧ steps? σ ts = some σ' ∧ Refuses σ' rest := by
  -- along the text, as it is cut: what is skipped and what is accepted goes to the front
  fun_induction lexemes offset text generalizing σ with
  | case1 offset =>
    rw [run] at h
    cases hfinish : finish? σ with
    | some tree =>
      rw [hfinish] at h
      cases h
    | none =>
      rw [hfinish] at h
      obtain rfl := Except.error.inj h
      exact ⟨[], [], [], σ, rfl, rfl, .nil, rfl, .ended hfinish⟩
  | case2 offset c rest hc ih =>
    have hlength : offset + (c :: rest).length = offset + 1 + rest.length := by
      simp only [List.length_cons]
      omega
    rw [hlength] at h
    obtain ⟨before, rest', ts, σ', rfl, hoffset, hcut, hsteps, hrefuses⟩ := ih h
    refine ⟨c :: before, rest', ts, σ', rfl, ?_, .skip hc hcut, hsteps, hrefuses⟩
    simp only [hoffset, List.length_cons]
    omega
  | case3 offset c rest hc scanned =>
    rename_i ih
    rw [run] at h
    cases hstep : step? σ scanned.token with
    | none =>
      rw [hstep] at h
      obtain rfl := Except.error.inj h
      exact ⟨[], c :: rest, [], σ, rfl, rfl, .nil, rfl, .token (Bool.eq_false_iff.2 hc) hstep⟩
    | some next =>
      rw [hstep] at h
      have htext : scanned.text ++ scanned.rest = c :: rest := Token.scan_text c rest
      have hlength : offset + (c :: rest).length =
          offset + scanned.text.length + scanned.rest.length := by
        rw [← htext, List.length_append]
        omega
      rw [hlength] at h
      obtain ⟨before, rest', ts, σ', hrest, hoffset, hcut, hsteps, hrefuses⟩ := ih h
      -- what has been scanned is the longest token with all that follows behind it
      have hmax : ∀ text' t', Spells text' t' → text' <+: scanned.text ++ (before ++ rest') →
          text'.length ≤ scanned.text.length := by
        intro text' t' h' hpre
        rw [← hrest] at hpre
        exact length_le_scan_text h' hpre
      refine ⟨scanned.text ++ before, rest', scanned.token :: ts, σ', ?_, ?_,
        .token (spells_scan (isReadable_of_step? hstep)) hmax hcut, ?_, hrefuses⟩
      · rw [← htext, hrest, List.append_assoc]
      · rw [hoffset, List.length_append]
        omega
      · rw [steps?_cons, hstep]
        exact hsteps

end Parser

/-! ## What an error says -/

/-- The column behind a text: one more than the length of its last line. -/
def columnBehind (text : List Char) : Nat :=
  (text.reverse.takeWhile (· != '\n')).length + 1

theorem columnAt_append (before rest : List Char) :
    columnAt (before ++ rest) before.length = columnBehind before := by
  rw [columnAt, List.take_left]
  -- from the end of the text, where the last line feed is what counts
  induction before using List.reverseRecOn with
  | nil => rfl
  | append_singleton front c ih =>
    rw [List.foldl_append, ih]
    by_cases hc : c = '\n' <;> simp [columnBehind, hc]

/-- What is wrong with the text behind the tokens `ts`. -/
inductive Offends (ts : List Token) : List Char → Prop where
  /-- It ends, and the tokens are no expression. -/
  | ended (h : ∀ d : Derivation .sum, d.tokens ≠ ts) : Offends ts []
  /-- It begins with a character that begins no token. -/
  | foreign {c : Char} {rest : List Char}
    (h : ∀ part t, Spells part t → ¬ part <+: c :: rest) : Offends ts (c :: rest)
  /-- No expression has its first token behind the tokens. -/
  | refused {part rest : List Char} {t : Token} (ht : Spells part t)
    (hmax : ∀ text' t', Spells text' t' → text' <+: part ++ rest → text'.length ≤ part.length)
    (h : ∀ d : Derivation .sum, ¬ ts ++ [t] <+: d.tokens) : Offends ts (part ++ rest)

/-- What a state refuses is refused by every derivation. -/
theorem Parser.Refuses.offends {ts : List Token} {σ : State} {rest : List Char}
    (h : Refuses σ rest) (hsteps : steps? start ts = some σ) : Offends ts rest := by
  cases h with
  | ended hfinish => exact .ended (tokens_ne_of_finish?_eq_none hsteps hfinish)
  | @token c rest hc hstep =>
    by_cases hreadable : (Token.scan c rest).token.IsReadable
    · have hoffends : Offends ts ((Token.scan c rest).text ++ (Token.scan c rest).rest) :=
        .refused (spells_scan hreadable) (fun _ _ => length_le_scan_text)
          (not_prefix_of_step?_eq_none hsteps hstep)
      rwa [Token.scan_text] at hoffends
    · exact .foreign fun part t hspells hpre => hreadable (hspells.length_le_scan hpre).1

/-- What has been read can go on to a text that the grammar derives. -/
theorem Parser.exists_continuation {before : List Char} {ts : List Token} {σ : State}
    (hcut : Cut before ts) (hsteps : steps? start ts = some σ) :
    ∃ (more : List Char) (d : Derivation .sum), Cut (before ++ more) d.tokens ∧ ts <+: d.tokens := by
  obtain ⟨more, us, hmore, hends, tree, htree⟩ := exists_completion σ
  have haccepted : accepted? (ts ++ us) = some tree := by
    rw [accepted?, steps?_append us hsteps, htree]
  obtain ⟨d, htokens, -⟩ := accepts_iff.1 haccepted
  refine ⟨more, d, ?_, ?_⟩ <;> rw [htokens]
  · exact hcut.append hmore (hends ts)
  · exact List.prefix_append ts us

/-- **The column of an error.** A text that is not blank, nests within its limit and is not derived
by the grammar is refused with the column of a place in it: the end of the text or a character that
is not skipped, behind a whole number of tokens. The text in front of the place can go on to one that
the grammar derives, but not with what stands there. -/
theorem Expr.ofText_unreadable {text : String} (hblank : Text.trim text.toList ≠ [])
    (hdepth : nestingDepth (Text.trim text.toList) ≤ maxNesting)
    (hrejected : ∀ d : Derivation .sum, ¬ Cut text.toList d.tokens) :
    ∃ before rest ts expected, text.toList = before ++ rest ∧
      Expr.ofText text =
        .error (.unreadable (Text.trimmed text) (columnBehind before) expected) ∧
      (∀ c ∈ rest.head?, Token.isSkipped c = false) ∧
      CutBefore rest before ts ∧
      (∃ (more : List Char) (d : Derivation .sum),
        Cut (before ++ more) d.tokens ∧ ts <+: d.tokens) ∧
      Offends ts rest := by
  cases hparse : ParseTree.parse text.toList with
  | ok tree =>
    obtain ⟨d, hcut, -⟩ := ParseTree.parse_eq_ok_iff.1 hparse
    exact absurd hcut (hrejected d)
  | error failure =>
    have hrun : Parser.run (0 + text.toList.length) Parser.start (lexemes 0 text.toList) =
        .error failure := by
      rw [Nat.zero_add]
      exact hparse
    obtain ⟨before, rest, ts, σ, htext, hoffset, hcut, hsteps, hrefuses⟩ :=
      Parser.exists_refuses hrun
    refine ⟨before, rest, ts, failure.expected, htext, ?_, ?_, hcut,
      Parser.exists_continuation hcut.cut hsteps, hrefuses.offends hsteps⟩
    · have hcolumn : columnAt text.toList failure.offset = columnBehind before := by
        rw [hoffset, Nat.zero_add, htext, columnAt_append]
      simp only [Expr.ofText, ParseTree.ofText]
      rw [if_neg hblank, if_neg (Nat.not_lt.2 hdepth), hparse, ← hcolumn]
      rfl
    · intro c hc
      cases hrefuses with
      | ended => cases hc
      | token hskipped =>
        obtain rfl := Option.some.inj hc
        exact hskipped

/-- In the second line, a number cannot stand behind a number. -/
theorem Expr.ofText_unreadable_secondLine :
    (Expr.ofText "f(1,\n 2 3)" =
      .error (.unreadable "f(1,\n 2 3)" 4 .operator)) ∧
    ∃ before rest ts expected, "f(1,\n 2 3)".toList = before ++ rest ∧
      Expr.ofText "f(1,\n 2 3)" =
        .error (.unreadable (Text.trimmed "f(1,\n 2 3)") (columnBehind before) expected) ∧
      (∀ c ∈ rest.head?, Token.isSkipped c = false) ∧
      CutBefore rest before ts ∧
      (∃ (more : List Char) (d : Derivation .sum),
        Cut (before ++ more) d.tokens ∧ ts <+: d.tokens) ∧
      Offends ts rest := by
  have hcause : (match Expr.ofText "f(1,\n 2 3)" with
      | .error cause => some cause
      | .ok _ => none) = some (.unreadable "f(1,\n 2 3)" 4 .operator) := by decide +kernel
  have hrejected : (ParseTree.parse "f(1,\n 2 3)".toList).toOption.isNone = true := by
    decide +kernel
  refine ⟨?_, Expr.ofText_unreadable (by decide) (by decide) ?_⟩
  · cases hread : Expr.ofText "f(1,\n 2 3)" with
    | ok e =>
      rw [hread] at hcause
      cases hcause
    | error cause =>
      rw [hread] at hcause
      rw [Option.some.inj hcause]
  · intro d hcut
    rw [ParseTree.parse_eq_ok_iff.2 ⟨d, hcut, rfl⟩] at hrejected
    cases hrejected

end CurveArt
