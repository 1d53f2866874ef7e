import CurveArt.Proofs.Expr.Faults
import Mathlib.Data.List.DropRight

/-!
# Blanks around a text

Emptiness and nesting are judged without the blanks around a text, and an error quotes the text
without them; but what is parsed is the text with its blanks, and only four of the blanks are
skipped. So a text and the same text trimmed need not give the same result: a blank that is not
skipped is refused where it stands, and a column is counted in the text with its blanks, not in the
one that the error quotes.

Blanks change no token in front of them or behind them. So the parser stops at the same character
with blanks around the text as without them, unless it stops at a blank.

Main results:

* `ParseTree.parse_eq_error_iff`: where a text is refused, and what could have stood there.
* `Expr.ofText_trimmed`: the result for a text, from the result for the trimmed text.
-/

namespace CurveArt

open Grammar Spelling

namespace Spelling

/-! ## Blanks next to tokens -/

theorem not_isInner_of_isBlank {c : Char} (h : Text.isBlank c = true) :
    isInner c = false ∧ c ≠ '*' := by
  refine ⟨Bool.eq_false_iff.2 fun hinner => ?_, by rintro rfl; cases h⟩
  -- what goes on with a name also begins one, unless it is a digit, which begins a number
  simp only [isInner, Token.continuesName, Char.isAlphanum, Bool.or_eq_true, beq_iff_eq] at hinner
  rcases hinner with ((((halpha | hdigit) | rfl) | rfl) | rfl) | rfl
  · rw [not_isBlank_of_startsName (by simp [Token.startsName, halpha])] at h
    cases h
  · rw [not_isBlank_of_isStart (.inl hdigit)] at h
    cases h
  all_goals cases h

/-- A spelling at the front of a text does not run into the blanks behind the text. -/
theorem Spells.prefix_of_isBlank {text part back : List Char} {t : Token} (h : Spells text t)
    (hback : ∀ c ∈ back, Text.isBlank c = true) (hpart : part ≠ [])
    (hpre : text <+: part ++ back) : text <+: part := by
  cases back with
  | nil => rwa [List.append_nil] at hpre
  | cons c back =>
    obtain ⟨hc, hstar⟩ := not_isInner_of_isBlank (hback c (List.mem_cons_self ..))
    exact h.prefix_of_not_inner hpre hpart hc fun h => absurd h hstar

/-- Blanks behind a text change none of the tokens in front of its rest. -/
theorem CutBefore.append_blanks {text rest back : List Char} {ts : List Token}
    (h : CutBefore rest text ts) (hback : ∀ c ∈ back, Text.isBlank c = true) :
    CutBefore (rest ++ back) text ts := by
  induction h with
  | nil => exact .nil
  | skip hc _ ih => exact .skip hc ih
  | @token part text t ts ht hmax _ ih =>
    refine .token ht (fun text' t' h' hpre => hmax text' t' h' ?_) ih
    obtain ⟨first, tail, rfl, -⟩ := ht.exists_cons
    refine h'.prefix_of_isBlank hback (by simp) ?_
    simpa only [List.append_assoc] using hpre

/-- What is skipped can stand in front of any text that is cut. -/
theorem CutBefore.gap {gap text rest : List Char} {ts : List Token}
    (hgap : ∀ c ∈ gap, Token.isSkipped c = true) (h : CutBefore rest text ts) :
    CutBefore rest (gap ++ text) ts := by
  induction gap with
  | nil => exact h
  | cons c gap ih =>
    obtain ⟨hc, hgap⟩ := List.forall_mem_cons.1 hgap
    exact .skip hc (ih hgap)

/-- What is skipped can also stand behind it. -/
theorem CutBefore.append_gap {gap text rest : List Char} {ts : List Token}
    (h : CutBefore (gap ++ rest) text ts) (hgap : ∀ c ∈ gap, Token.isSkipped c = true) :
    CutBefore rest (text ++ gap) ts := by
  induction h with
  | nil =>
    have hcut := CutBefore.gap hgap (@CutBefore.nil rest)
    rwa [List.append_nil] at hcut
  | skip hc _ ih => exact .skip hc ih
  | token ht hmax _ ih =>
    rw [List.append_assoc]
    refine .token ht ?_ ih
    intro text' t' h' hpre
    exact hmax text' t' h' (by simpa only [List.append_assoc] using hpre)

end Spelling

namespace Parser

/-! ## Where a run stops, from the state -/

/-- A run stops where its state refuses the rest of the text. -/
theorem run_of_refuses {before rest : List Char} {ts : List Token}
    (hcut : CutBefore rest before ts) {σ σ' : State} (hsteps : steps? σ ts = some σ')
    (hrefuses : Refuses σ' rest) (offset : Nat) :
    run (offset + (before ++ rest).length) σ (lexemes offset (before ++ rest)) =
      .error ⟨offset + before.length, σ'.expected⟩ := by
  -- each token of the cut is scanned and takes one step, and what is skipped takes none
  induction hcut generalizing σ offset with
  | nil =>
    obtain rfl := Option.some.inj hsteps
    cases hrefuses with
    | ended h => rw [List.append_nil, lexemes, run, h]
    | token hc h =>
      rw [List.nil_append, lexemes, if_neg (by simp [hc]), run, h]
      rfl
  | skip hc _ ih =>
    have hrun := ih hsteps (offset + 1)
    rw [List.cons_append, lexemes, if_pos hc, List.length_cons, List.length_cons]
    rwa [Nat.add_right_comm, Nat.add_assoc, Nat.add_right_comm offset] at hrun
  | @token part text t ts ht hmax _ ih =>
    obtain ⟨c, tail, htext, hc, -, hscan⟩ := scan_of_longest ht hmax
    rw [steps?_cons] at hsteps
    obtain ⟨next, hstep, hsteps⟩ := Option.bind_eq_some_iff.1 hsteps
    have hrun := ih hsteps (offset + part.length)
    have hlength : offset + (c :: tail).length = offset + part.length + (text ++ rest).length := by
      rw [← htext, List.length_append, Nat.add_assoc]
    rw [List.append_assoc, htext, lexemes, if_neg (by simp [hc]), hscan, run, hstep, hlength]
    simp only
    rw [hrun, List.length_append, Nat.add_assoc]

/-- A blank that is not skipped can stand nowhere. -/
theorem refuses_blank (σ : State) {c : Char} (hblank : Text.isBlank c = true)
    (hc : Token.isSkipped c = false) (rest : List Char) : Refuses σ (c :: rest) := by
  refine .token hc ?_
  by_contra hstep
  obtain ⟨next, hstep⟩ := Option.ne_none_iff_exists'.1 hstep
  -- a token that can stand somewhere is spelled, and no spelling begins with a blank
  have hspells := spells_scan (isReadable_of_step? hstep)
  obtain ⟨d, part, htext, hd⟩ := hspells.exists_cons
  have hfront := Token.scan_text c rest
  rw [htext, List.cons_append] at hfront
  obtain ⟨rfl, -⟩ := List.cons.inj hfront
  rw [hblank] at hd
  cases hd

theorem isSkipped_takeWhile (blanks : List Char) :
    ∀ c ∈ blanks.takeWhile Token.isSkipped, Token.isSkipped c = true :=
  List.all_eq_true.1 List.all_takeWhile

theorem exists_dropWhile {blanks : List Char} (h : ∃ c ∈ blanks, Token.isSkipped c = false) :
    ∃ c rest, blanks.dropWhile Token.isSkipped = c :: rest ∧ c ∈ blanks ∧
      Token.isSkipped c = false := by
  obtain ⟨d, hmem, hd⟩ := h
  have hne : blanks.dropWhile Token.isSkipped ≠ [] := by
    intro hnil
    have hskipped := List.dropWhile_eq_nil_iff.1 hnil d hmem
    rw [hd] at hskipped
    cases hskipped
  obtain ⟨c, rest, hrest⟩ := List.exists_cons_of_ne_nil hne
  refine ⟨c, rest, hrest, (List.dropWhile_suffix _).subset (hrest ▸ List.mem_cons_self ..), ?_⟩
  have hc := List.dropWhile_get_zero_not Token.isSkipped blanks (List.length_pos_iff.2 hne)
  simpa [hrest] using hc

/-- What a state refuses it refuses with blanks behind it. -/
theorem Refuses.append_blanks {σ : State} {rest back : List Char} (h : Refuses σ rest)
    (hrest : rest ≠ []) (hback : ∀ c ∈ back, Text.isBlank c = true) : Refuses σ (rest ++ back) := by
  cases h with
  | ended => exact absurd rfl hrest
  | @token c rest hc hstep =>
    refine .token hc ?_
    by_contra hstep'
    obtain ⟨next, hnext⟩ := Option.ne_none_iff_exists'.1 hstep'
    have hstep' : step? σ (Token.scan c (rest ++ back)).token = some next := hnext
    -- the token that could stand here does not reach the blanks, so it is the one without them
    have hspells := spells_scan (isReadable_of_step? hstep')
    have htext := Token.scan_text c (rest ++ back)
    obtain ⟨after, hafter⟩ :=
      hspells.prefix_of_isBlank hback (List.cons_ne_nil c rest) ⟨_, htext⟩
    have hlongest (text' : List Char) (t' : Token) (h' : Spells text' t')
        (hpre : text' <+: (Token.scan c (rest ++ back)).text ++ after) :
        text'.length ≤ (Token.scan c (rest ++ back)).text.length := by
      rw [hafter] at hpre
      exact (h'.length_le_scan (hpre.trans (List.prefix_append _ back))).2
    obtain ⟨d, tail, hfront, -, -, hscan⟩ := scan_of_longest hspells hlongest
    rw [hafter] at hfront
    obtain ⟨rfl, rfl⟩ := List.cons.inj hfront
    rw [hscan, hstep'] at hstep
    cases hstep

/-- Where the text may end, nothing but an operator could also follow. -/
theorem expected_of_finish? {σ : State} {tree : ParseTree} (h : finish? σ = some tree) :
    σ.expected = .operatorOrEnd := by
  have hafter : ∀ {operand : ParseTree} {stack : List Frame},
      finishOperand? operand stack = some tree → afterOperand stack = .operatorOrEnd := by
    intro operand stack h
    rcases reduce_zero operand stack with ⟨whole, -, hcount⟩ | ⟨inner, frame, open', hreduce, -, -⟩
    · -- no parenthesis is open
      rw [afterOperand, if_neg]
      intro hany
      obtain ⟨frame, hmem, hframe⟩ := List.any_eq_true.1 hany
      exact List.countP_eq_zero.1 hcount frame hmem hframe
    · rw [finishOperand?, hreduce] at h
      cases h
  cases σ with
  | operand fresh stack => cases h
  | named name stack => exact hafter h
  | operator operand stack => exact hafter h

end Parser

open CurveArt.Parser in
/-- **Where a text is refused.** It is the place up to which the parser can read and where what
stands there is refused, and what could have stood there is what the parser waits for. -/
theorem ParseTree.parse_eq_error_iff {text : List Char} {failure : Failure} :
    ParseTree.parse text = .error failure ↔ ∃ before rest ts σ, text = before ++ rest ∧
      CutBefore rest before ts ∧ steps? start ts = some σ ∧ Refuses σ rest ∧
      failure = ⟨before.length, σ.expected⟩ := by
  have hrun : ∀ text, run (0 + text.length) start (lexemes 0 text) = ParseTree.parse text := by
    intro text
    rw [Nat.zero_add, ParseTree.parse]
  have hfails : ∀ {before rest : List Char} {ts : List Token} {σ : State},
      CutBefore rest before ts → steps? start ts = some σ → Refuses σ rest →
      ParseTree.parse (before ++ rest) = .error ⟨before.length, σ.expected⟩ := by
    intro before rest ts σ hcut hsteps hrefuses
    rw [← hrun, run_of_refuses hcut hsteps hrefuses, Nat.zero_add]
  constructor
  · intro h
    obtain ⟨before, rest, ts, σ, rfl, -, hcut, hsteps, hrefuses⟩ :=
      exists_refuses ((hrun text).trans h)
    rw [hfails hcut hsteps hrefuses] at h
    exact ⟨before, rest, ts, σ, rfl, hcut, hsteps, hrefuses, (Except.error.inj h).symm⟩
  · rintro ⟨before, rest, ts, σ, rfl, hcut, hsteps, hrefuses, rfl⟩
    exact hfails hcut hsteps hrefuses

/-! ## The parser between blanks -/

namespace ParseTree

section Between

open CurveArt.Parser

variable {front core back : List Char}

/-- A blank in front that is not skipped is refused, whatever follows it. -/
theorem parse_preceded (hblank : ∀ c ∈ front, Text.isBlank c = true)
    (hfront : ∃ c ∈ front, Token.isSkipped c = false) (text : List Char) :
    parse (front ++ text) = .error ⟨(front.takeWhile Token.isSkipped).length, .expression⟩ := by
  obtain ⟨c, rest, hrest, hmem, hc⟩ := exists_dropWhile hfront
  have hgap := CutBefore.gap (isSkipped_takeWhile front)
    (@CutBefore.nil (c :: (rest ++ text)))
  rw [List.append_nil] at hgap
  refine parse_eq_error_iff.2 ⟨front.takeWhile Token.isSkipped, _, [], start, ?_, hgap, rfl,
    refuses_blank start (hblank c hmem) hc _, rfl⟩
  rw [← List.cons_append, ← hrest, ← List.append_assoc, List.takeWhile_append_dropWhile]

/-- Blanks that are skipped take nothing from a text that can be read, and add nothing. -/
theorem parse_between {tree : ParseTree} (h : parse core = .ok tree)
    (hfront : ∀ c ∈ front, Token.isSkipped c = true)
    (hback : ∀ c ∈ back, Token.isSkipped c = true) :
    parse (front ++ (core ++ back)) = .ok tree := by
  obtain ⟨d, hcut, rfl⟩ := parse_eq_ok_iff.1 h
  refine parse_eq_ok_iff.2 ⟨d, .gap hfront ?_, rfl⟩
  have hgap := Cut.gap hback .nil
  rw [List.append_nil] at hgap
  have hends : Ends d.tokens back := by
    intro c hc
    obtain ⟨hinner, hstar⟩ := not_isInner_of_isSkipped (hback c (List.mem_of_mem_head? hc))
    exact ⟨hinner, fun h => absurd h hstar⟩
  have := hcut.append hgap hends
  rwa [List.append_nil] at this

/-- Where a text has been read to its end, the blanks behind it that are skipped are read too. The
parser stops behind them if the text may not end there, and also at a blank that is not skipped. -/
theorem parse_followed {ts : List Token} {σ : State} (hcut : CutBefore [] core ts)
    (hsteps : steps? start ts = some σ) (hfront : ∀ c ∈ front, Token.isSkipped c = true)
    (hback : ∀ c ∈ back, Text.isBlank c = true)
    (h : finish? σ = none ∨ ∃ c ∈ back, Token.isSkipped c = false) :
    parse (front ++ (core ++ back)) =
      .error ⟨(front ++ (core ++ back.takeWhile Token.isSkipped)).length, σ.expected⟩ := by
  have hrefuses : Refuses σ (back.dropWhile Token.isSkipped) := by
    by_cases hother : ∃ c ∈ back, Token.isSkipped c = false
    · obtain ⟨c, rest, hrest, hmem, hc⟩ := exists_dropWhile hother
      rw [hrest]
      exact refuses_blank σ (hback c hmem) hc rest
    · have hall : ∀ c ∈ back, Token.isSkipped c = true := by simpa using hother
      rw [List.dropWhile_eq_nil_iff.2 hall]
      exact .ended (h.resolve_right hother)
  have hcut' : CutBefore (back.takeWhile Token.isSkipped ++ back.dropWhile Token.isSkipped)
      core ts := by
    rw [List.takeWhile_append_dropWhile]
    exact hcut.append_blanks hback
  refine parse_eq_error_iff.2 ⟨_, _, ts, σ, ?_,
    .gap hfront (hcut'.append_gap (isSkipped_takeWhile back)), hsteps, hrefuses, rfl⟩
  rw [List.append_assoc, List.append_assoc, List.takeWhile_append_dropWhile]

/-- What is refused within a text is also refused between blanks. -/
theorem parse_refused {before rest : List Char} {ts : List Token} {σ : State}
    (hcut : CutBefore rest before ts) (hsteps : steps? start ts = some σ)
    (hrefuses : Refuses σ rest) (hrest : rest ≠ [])
    (hfront : ∀ c ∈ front, Token.isSkipped c = true)
    (hback : ∀ c ∈ back, Text.isBlank c = true) :
    parse (front ++ ((before ++ rest) ++ back)) =
      .error ⟨(front ++ before).length, σ.expected⟩ := by
  refine parse_eq_error_iff.2 ⟨_, _, ts, σ, ?_, .gap hfront (hcut.append_blanks hback), hsteps,
    hrefuses.append_blanks hrest hback, rfl⟩
  simp only [List.append_assoc]

end Between

end ParseTree

/-! ## The text and the trimmed text -/

theorem Text.trim_trim (text : List Char) : Text.trim (Text.trim text) = Text.trim text := by
  show ((List.rdropWhile isBlank (text.dropWhile isBlank)).dropWhile isBlank).rdropWhile isBlank =
    (text.dropWhile isBlank).rdropWhile isBlank
  have hfront : (List.rdropWhile isBlank (text.dropWhile isBlank)).dropWhile isBlank =
      List.rdropWhile isBlank (text.dropWhile isBlank) := by
    refine List.dropWhile_eq_self_iff.2 fun hlength => ?_
    have hstart := List.rdropWhile_prefix isBlank (text.dropWhile isBlank)
    rw [hstart.getElem hlength]
    exact List.dropWhile_get_zero_not isBlank text (hlength.trans_le hstart.length_le)
  rw [hfront, List.rdropWhile_idempotent]

/-- A column goes on from what stands in front, as long as no line feed comes between. -/
theorem columnBehind_append (front text : List Char) : columnBehind (front ++ text) =
    if '\n' ∈ text then columnBehind text else columnBehind front + text.length := by
  have hlast : (text.reverse.takeWhile (· != '\n')).length = text.reverse.length ↔
      '\n' ∉ text := by
    constructor
    · intro hlength hmem
      have hself := (List.takeWhile_prefix (· != '\n')).eq_of_length hlength
      simpa using List.takeWhile_eq_self_iff.1 hself '\n' (List.mem_reverse.2 hmem)
    · intro hmem
      rw [List.takeWhile_eq_self_iff.2]
      intro c hc
      rw [bne_iff_ne]
      rintro rfl
      exact hmem (List.mem_reverse.1 hc)
  simp only [columnBehind, List.reverse_append, List.takeWhile_append, hlast]
  by_cases h : '\n' ∈ text
  · simp [h]
  · simp only [h, not_false_eq_true, if_true, if_false, List.length_append, List.length_reverse]
    omega

theorem columnBehind_append_eq_iff (front text : List Char) :
    columnBehind (front ++ text) = columnBehind text ↔ '\n' ∈ text ∨ columnBehind front = 1 := by
  have hline : columnBehind text = if '\n' ∈ text then columnBehind text else 1 + text.length :=
    columnBehind_append [] text
  rw [columnBehind_append]
  split_ifs at hline ⊢ with h
  · simp [h]
  · simp only [h, false_or]
    omega

/-- The result for `core` on its own, and the one for it with the blanks `front` and `back` around
it. -/
inductive Expr.Surrounded (front core back : List Char) :
    Except CompileError Expr → Except CompileError Expr → Prop where
  /-- What is judged before parsing does not depend on the blanks. -/
  | judged {cause : CompileError} (h : cause = .empty ∨ cause = .tooDeep) :
    Surrounded front core back (.error cause) (.error cause)
  /-- Neither do the expression of a text and its size, if all the blanks are skipped. -/
  | read {tree : ParseTree} {result : Except CompileError Expr}
    (hparse : ParseTree.parse core = .ok tree) (hfront : ∀ c ∈ front, Token.isSkipped c = true)
    (hback : ∀ c ∈ back, Token.isSkipped c = true) : Surrounded front core back result result
  /-- The first blank in front that is not skipped is refused. -/
  | preceded {result : Except CompileError Expr}
    (hfront : ∃ c ∈ front, Token.isSkipped c = false) :
    Surrounded front core back result (.error (.unreadable (String.ofList core)
      (columnBehind (front.takeWhile Token.isSkipped)) .expression))
  /-- Behind an expression, so is the first blank that is not skipped. -/
  | followed {tree : ParseTree} {result : Except CompileError Expr}
    (hparse : ParseTree.parse core = .ok tree) (hfront : ∀ c ∈ front, Token.isSkipped c = true)
    (hback : ∃ c ∈ back, Token.isSkipped c = false) :
    Surrounded front core back result (.error (.unreadable (String.ofList core)
      (columnBehind (front ++ (core ++ back.takeWhile Token.isSkipped))) .operatorOrEnd))
  /-- What is missing at the end is missing behind the blanks that are skipped. -/
  | ended {expected : Expected}
    (hparse : ParseTree.parse core = .error ⟨core.length, expected⟩)
    (hfront : ∀ c ∈ front, Token.isSkipped c = true) :
    Surrounded front core back
      (.error (.unreadable (String.ofList core) (columnBehind core) expected))
      (.error (.unreadable (String.ofList core)
        (columnBehind (front ++ (core ++ back.takeWhile Token.isSkipped))) expected))
  /-- What is refused within the text is refused there, at the column that counts the blanks. -/
  | refused {before rest : List Char} {expected : Expected} (hcore : core = before ++ rest)
    (hrest : rest ≠ []) (hparse : ParseTree.parse core = .error ⟨before.length, expected⟩)
    (hfront : ∀ c ∈ front, Token.isSkipped c = true) :
    Surrounded front core back
      (.error (.unreadable (String.ofList core) (columnBehind before) expected))
      (.error (.unreadable (String.ofList core) (columnBehind (front ++ before)) expected))

theorem Expr.Surrounded.ok_iff {front core back : List Char}
    {trimmed whole : Except CompileError Expr} (h : Expr.Surrounded front core back trimmed whole)
    (e : Expr) : whole = .ok e ↔
      trimmed = .ok e ∧ ∀ c ∈ front ++ back, Token.isSkipped c = true := by
  have hother : ∀ {blanks : List Char}, (∃ c ∈ blanks, Token.isSkipped c = false) →
      ¬ ∀ c ∈ blanks, Token.isSkipped c = true := by
    rintro blanks ⟨c, hmem, hc⟩ hall
    rw [hall c hmem] at hc
    cases hc
  rw [List.forall_mem_append]
  cases h with
  | read hparse hfront hback => exact ⟨fun h => ⟨h, hfront, hback⟩, fun h => h.1⟩
  | preceded hfront => simp [hother hfront]
  | followed hparse hfront hback => simp [hother hback]
  | _ => simp

/-- What is made of a text that passes the checks before the parser, where `core` is the text in
messages. -/
def Expr.parsed (core text : List Char) : Except CompileError Expr :=
  match ParseTree.parse text with
  | .error failure =>
    .error (.unreadable (String.ofList core) (columnAt text failure.offset) failure.expected)
  | .ok tree => if maxNodes < tree.nodes then .error .tooComplex else .ok tree.expr

theorem Expr.ofText_of_parse {text : String} {core : List Char}
    (hcore : Text.trim text.toList = core) (hne : core ≠ [])
    (hdepth : ¬ maxNesting < nestingDepth core) :
    Expr.ofText text = Expr.parsed core text.toList := by
  simp only [Expr.ofText, ParseTree.ofText, hcore, Expr.parsed]
  rw [if_neg hne, if_neg hdepth]
  cases ParseTree.parse text.toList with
  | error failure => rfl
  | ok tree =>
    simp only
    split <;> rfl

theorem columnAt_of_front {before text : List Char} (h : before <+: text) :
    columnAt text before.length = columnBehind before := by
  obtain ⟨rest, rfl⟩ := h
  exact columnAt_append before rest

section Parsed

variable {front core back : List Char} (hfront : ∀ c ∈ front, Text.isBlank c = true)
  (hback : ∀ c ∈ back, Text.isBlank c = true)

theorem prefix_of_skipped (front core back : List Char) :
    front ++ (core ++ back.takeWhile Token.isSkipped) <+: front ++ (core ++ back) := by
  rw [List.prefix_append_right_inj, List.prefix_append_right_inj]
  exact List.takeWhile_prefix _

include hfront in
/-- A blank in front that is not skipped is where the parser stops. -/
theorem Expr.surrounded_preceded (hother : ∃ c ∈ front, Token.isSkipped c = false) :
    Expr.Surrounded front core back (Expr.parsed core core)
      (Expr.parsed core (front ++ (core ++ back))) := by
  have hstop : front.takeWhile Token.isSkipped <+: front ++ (core ++ back) :=
    (List.takeWhile_prefix _).trans (List.prefix_append front _)
  rw [Expr.parsed.eq_def core (front ++ (core ++ back)), ParseTree.parse_preceded hfront hother]
  simp only
  rw [columnAt_of_front hstop]
  exact .preceded hother

include hback in
/-- Behind an expression, so is a blank that is not skipped. -/
theorem Expr.surrounded_ok {tree : ParseTree} (hparse : ParseTree.parse core = .ok tree)
    (hskipped : ∀ c ∈ front, Token.isSkipped c = true) :
    Expr.Surrounded front core back (Expr.parsed core core)
      (Expr.parsed core (front ++ (core ++ back))) := by
  obtain ⟨d, hcut, rfl⟩ := ParseTree.parse_eq_ok_iff.1 hparse
  by_cases hother : ∃ c ∈ back, Token.isSkipped c = false
  · obtain ⟨σ, hsteps, hfinish⟩ := Option.bind_eq_some_iff.1 (Parser.accepted?_tokens d)
    rw [Expr.parsed.eq_def core (front ++ (core ++ back)),
      ParseTree.parse_followed (hcut.cutBefore (ends_nil _)) hsteps hskipped hback (.inr hother),
      Parser.expected_of_finish? hfinish]
    simp only
    rw [columnAt_of_front (prefix_of_skipped front core back)]
    exact .followed hparse hskipped hother
  · have hskipped' : ∀ c ∈ back, Token.isSkipped c = true := by simpa using hother
    rw [Expr.parsed, Expr.parsed, ParseTree.parse_between hparse hskipped hskipped', hparse]
    exact .read hparse hskipped hskipped'

include hback in
/-- A text that is refused at its end is refused behind the blanks that are skipped. -/
theorem Expr.surrounded_error {failure : Parser.Failure}
    (hparse : ParseTree.parse core = .error failure)
    (hskipped : ∀ c ∈ front, Token.isSkipped c = true) :
    Expr.Surrounded front core back (Expr.parsed core core)
      (Expr.parsed core (front ++ (core ++ back))) := by
  obtain ⟨before, rest, ts, σ, rfl, hcut, hsteps, hrefuses, rfl⟩ :=
    ParseTree.parse_eq_error_iff.1 hparse
  rw [Expr.parsed, Expr.parsed, hparse]
  simp only
  by_cases hrest : rest = []
  · subst hrest
    rw [List.append_nil] at *
    cases hrefuses with
    | ended hfinish =>
      rw [ParseTree.parse_followed hcut hsteps hskipped hback (.inl hfinish)]
      simp only
      rw [columnAt_of_front (prefix_of_skipped front before back),
        columnAt_of_front List.prefix_rfl]
      exact .ended hparse hskipped
  · rw [ParseTree.parse_refused hcut hsteps hrefuses hrest hskipped hback]
    simp only
    rw [columnAt_append, columnAt_of_front (by simp)]
    exact .refused rfl hrest hparse hskipped

end Parsed

theorem Expr.surrounded_trim {text : String} {front core back : List Char}
    (htext : text.toList = front ++ (core ++ back)) (hcore : Text.trim text.toList = core)
    (hfront : ∀ c ∈ front, Text.isBlank c = true) (hback : ∀ c ∈ back, Text.isBlank c = true) :
    Expr.Surrounded front core back (Expr.ofText (Text.trimmed text)) (Expr.ofText text) := by
  have htrimmed : (Text.trimmed text).toList = core := by
    rw [Text.trimmed, String.toList_ofList, hcore]
  have hcore' : Text.trim (Text.trimmed text).toList = core := by
    rw [htrimmed, ← hcore, Text.trim_trim]
  -- both checks before the parser look at the trimmed text
  by_cases hne : core = []
  · have hempty : ∀ text : String, Text.trim text.toList = core →
        Expr.ofText text = .error .empty := by
      intro text h
      simp only [Expr.ofText, ParseTree.ofText, h, hne]
      rfl
    rw [hempty text hcore, hempty _ hcore']
    exact .judged (.inl rfl)
  by_cases hdeep : maxNesting < nestingDepth core
  · have htooDeep : ∀ text : String, Text.trim text.toList = core →
        Expr.ofText text = .error .tooDeep := by
      intro text h
      simp only [Expr.ofText, ParseTree.ofText, h]
      rw [if_neg hne, if_pos hdeep]
      rfl
    rw [htooDeep text hcore, htooDeep _ hcore']
    exact .judged (.inr rfl)
  rw [Expr.ofText_of_parse hcore hne hdeep, Expr.ofText_of_parse hcore' hne hdeep, htrimmed, htext]
  -- then the parser stops at a blank, or where it stops in the trimmed text
  by_cases hother : ∃ c ∈ front, Token.isSkipped c = false
  · exact Expr.surrounded_preceded hfront hother
  have hskipped : ∀ c ∈ front, Token.isSkipped c = true := by simpa using hother
  cases hparse : ParseTree.parse core with
  | ok tree => exact Expr.surrounded_ok hback hparse hskipped
  | error failure => exact Expr.surrounded_error hback hparse hskipped

/-- **Blanks around a text.** A text is its trimmed text between two runs of blanks, and these and
the result for the trimmed text determine its result. It is accepted as the same expression exactly
if all the blanks are skipped. A column within the trimmed text is the one that is counted in it if
a line feed comes before the place, or if the blanks in front end with a line feed or are none. -/
theorem Expr.ofText_trimmed (text : String) : ∃ front back,
    text.toList = front ++ (Text.trim text.toList ++ back) ∧
    (∀ c ∈ front ++ back, Text.isBlank c = true) ∧
    Expr.Surrounded front (Text.trim text.toList) back
      (Expr.ofText (Text.trimmed text)) (Expr.ofText text) ∧
    (∀ e, Expr.ofText text = .ok e ↔ Expr.ofText (Text.trimmed text) = .ok e ∧
      ∀ c ∈ front ++ back, Token.isSkipped c = true) ∧
    ∀ before, columnBehind (front ++ before) = columnBehind before ↔
      '\n' ∈ before ∨ columnBehind front = 1 := by
  obtain ⟨front, back, htext, hfront, hback⟩ := exists_trim text.toList
  have hsurrounded := Expr.surrounded_trim htext rfl hfront hback
  exact ⟨front, back, htext, List.forall_mem_append.2 ⟨hfront, hback⟩, hsurrounded,
    hsurrounded.ok_iff, columnBehind_append_eq_iff front⟩

theorem Expr.ofText_eq_error {text : String} {cause : CompileError}
    (h : (match Expr.ofText text with
      | .error cause => some cause
      | .ok _ => none) = some cause) : Expr.ofText text = .error cause := by
  cases hread : Expr.ofText text with
  | ok e =>
    rw [hread] at h
    cases h
  | error cause' =>
    rw [hread] at h
    rw [Option.some.inj h]

/-- Two spaces in front move the column behind the end of the text that the error quotes, and a
no-break space in front of a name makes it no expression. -/
theorem Expr.ofText_trimmed_columns :
    Expr.ofText "  1 +" = .error (.unreadable "1 +" 6 .operand) ∧
    Expr.ofText (Text.trimmed "  1 +") = .error (.unreadable "1 +" 4 .operand) ∧
    (CompileError.unreadable "1 +" 6 .operand).message ≠
      (CompileError.unreadable "1 +" 4 .operand).message ∧
    Expr.ofText "\u00a0x" = .error (.unreadable "x" 1 .expression) ∧
    (Expr.ofText (Text.trimmed "\u00a0x")).toOption.map Expr.text = some "x" :=
  ⟨Expr.ofText_eq_error (by decide +kernel), Expr.ofText_eq_error (by decide +kernel),
    by decide +kernel, Expr.ofText_eq_error (by decide +kernel), by decide +kernel⟩

end CurveArt
