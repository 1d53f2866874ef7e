import CurveArt.Proofs.Expr.Acceptance
import CurveArt.Proofs.Expr.Boundaries

/-!
# The limits of a text that the grammar derives

Nesting is counted on the characters of a text, before anything is parsed: an opening parenthesis
opens a level, a closing one closes it, and what counts is the deepest level. The size is counted on
the parse tree. In a text that the grammar derives, every level belongs to a group or to the
arguments of a call, so the count on the characters is the depth of the tree.

`Nests n ts` says what a piece of a text does to the count: whatever is open in front of it is open
behind it, and it goes `n` levels deeper than that. Each way of putting pieces together has its own
rule.

Main results:

* `nestingDepth_eq_depth`: the count of a derived text is the depth of its tree.
* `ParseTree.ofText_of_cut`: what becomes of a derived text is decided by depth and size alone.
-/

namespace CurveArt

open Grammar

namespace Spelling

/-! ## Texts that are not blank -/

/-- A text that is cut into tokens is more than blanks. -/
theorem Cut.exists_not_isBlank {text : List Char} {ts : List Token} (h : Cut text ts)
    (hne : ts ≠ []) : ∃ c ∈ text, Text.isBlank c = false := by
  induction h with
  | nil => exact absurd rfl hne
  | skip _ _ ih =>
    obtain ⟨c, hmem, hc⟩ := ih hne
    exact ⟨c, List.mem_cons_of_mem _ hmem, hc⟩
  | token ht _ _ _ =>
    obtain ⟨c, rest, rfl, hc⟩ := ht.exists_cons
    exact ⟨c, List.mem_append_left _ (List.mem_cons_self ..), hc⟩

/-- Trimming takes nothing but blanks off. -/
theorem exists_trim (text : List Char) : ∃ front back, text = front ++ (Text.trim text ++ back) ∧
    (∀ c ∈ front, Text.isBlank c = true) ∧ ∀ c ∈ back, Text.isBlank c = true := by
  have hblank : ∀ part : List Char, ∀ c ∈ part.takeWhile Text.isBlank, Text.isBlank c = true :=
    fun _ => List.all_eq_true.1 List.all_takeWhile
  refine ⟨text.takeWhile Text.isBlank,
    ((text.dropWhile Text.isBlank).reverse.takeWhile Text.isBlank).reverse, ?_, hblank text, ?_⟩
  · rw [Text.trim, ← List.reverse_append, List.takeWhile_append_dropWhile, List.reverse_reverse,
      List.takeWhile_append_dropWhile]
  · intro c hc
    exact hblank _ c (List.mem_reverse.1 hc)

theorem isBlank_of_trim {text : List Char} (h : Text.trim text = []) :
    ∀ c ∈ text, Text.isBlank c = true := by
  obtain ⟨front, back, htext, hfront, hback⟩ := exists_trim text
  rw [htext, h]
  exact List.forall_mem_append.2 ⟨hfront, hback⟩

theorem Cut.trim_ne_nil {text : List Char} {ts : List Token} (h : Cut text ts) (hne : ts ≠ []) :
    Text.trim text ≠ [] := by
  intro htrim
  obtain ⟨c, hmem, hc⟩ := h.exists_not_isBlank hne
  rw [isBlank_of_trim htrim c hmem] at hc
  cases hc

/-! ## Counting levels -/

/-- The levels that are open and the deepest one so far, after one more character. -/
def nestChar (levels : Nat × Nat) (c : Char) : Nat × Nat :=
  if c = '(' then (levels.1 + 1, max levels.2 (levels.1 + 1))
  else if c = ')' then (levels.1 - 1, levels.2)
  else levels

/-- The levels after one more token. -/
def nestToken (levels : Nat × Nat) : Token → Nat × Nat
  | .leftParen => (levels.1 + 1, max levels.2 (levels.1 + 1))
  | .rightParen => (levels.1 - 1, levels.2)
  | _ => levels

theorem nestingDepth_eq (text : List Char) : nestingDepth text = (text.foldl nestChar (0, 0)).2 :=
  rfl

/-- Characters without parentheses among them leave the levels as they are. -/
theorem foldl_nestChar {text : List Char} (h : ∀ c ∈ text, c ≠ '(' ∧ c ≠ ')')
    (levels : Nat × Nat) : text.foldl nestChar levels = levels := by
  induction text with
  | nil => rfl
  | cons c text ih =>
    obtain ⟨⟨hopen, hclose⟩, hrest⟩ := List.forall_mem_cons.1 h
    rw [List.foldl_cons, nestChar, if_neg hopen, if_neg hclose]
    exact ih hrest

theorem not_parenthesis_of_isInner {c : Char} (h : isInner c = true) : c ≠ '(' ∧ c ≠ ')' := by
  constructor <;> rintro rfl <;> exact absurd h (by decide)

theorem not_parenthesis_of_isBlank {c : Char} (h : Text.isBlank c = true) : c ≠ '(' ∧ c ≠ ')' := by
  constructor <;> rintro rfl <;> exact absurd h (by decide)

theorem not_parenthesis_of_isSkipped {c : Char} (h : Token.isSkipped c = true) :
    c ≠ '(' ∧ c ≠ ')' := by
  constructor <;> rintro rfl <;> exact absurd h (by decide)

/-- The characters of a token count as the token does. -/
theorem Spells.foldl_nestChar {text : List Char} {t : Token} (h : Spells text t)
    (levels : Nat × Nat) : text.foldl nestChar levels = nestToken levels t := by
  -- only a symbol can be a parenthesis, and then it is nothing else
  cases h with
  | number h =>
    exact Spelling.foldl_nestChar
      (fun c hc => not_parenthesis_of_isInner (inner_of_isNumeral h c hc)) levels
  | name h =>
    exact Spelling.foldl_nestChar
      (fun c hc => not_parenthesis_of_isInner (inner_of_isName h c hc)) levels
  | symbol h =>
    simp only [symbols, List.mem_cons, Prod.mk.injEq, List.not_mem_nil, or_false] at h
    rcases h with h | h | h | h | h | h | h | h | h <;> rw [h.1, h.2] <;> rfl

theorem Cut.foldl_nestChar {text : List Char} {ts : List Token} (h : Cut text ts)
    (levels : Nat × Nat) : text.foldl nestChar levels = ts.foldl nestToken levels := by
  induction h generalizing levels with
  | nil => rfl
  | skip hc _ ih =>
    obtain ⟨hopen, hclose⟩ := not_parenthesis_of_isSkipped hc
    rw [List.foldl_cons, nestChar, if_neg hopen, if_neg hclose]
    exact ih levels
  | token ht _ _ ih => rw [List.foldl_append, ht.foldl_nestChar, List.foldl_cons, ih]

theorem nestingDepth_trim (text : List Char) :
    nestingDepth (Text.trim text) = nestingDepth text := by
  obtain ⟨front, back, htext, hfront, hback⟩ := exists_trim text
  -- no blank is a parenthesis, so what is trimmed off counts as nothing
  have hparts : nestingDepth text =
      ((front ++ (Text.trim text ++ back)).foldl nestChar (0, 0)).2 := by
    rw [← htext]
    rfl
  rw [hparts, List.foldl_append, List.foldl_append,
    foldl_nestChar fun c hc => not_parenthesis_of_isBlank (hfront c hc),
    foldl_nestChar fun c hc => not_parenthesis_of_isBlank (hback c hc), nestingDepth_eq]

end Spelling

namespace Grammar

open Spelling

/-! ## Levels of a derivation -/

/-- The tokens close all that they open, and nest `n` levels deep. -/
def Nests (n : Nat) (ts : List Token) : Prop :=
  ∀ opened deepest, opened ≤ deepest →
    ts.foldl nestToken (opened, deepest) = (opened, max deepest (opened + n))

theorem nests_nil : Nests 0 [] := by
  intro opened deepest hle
  simp [hle]

theorem Nests.cons {n : Nat} {ts : List Token} (h : Nests n ts) {t : Token}
    (ht : ∀ levels, nestToken levels t = levels) : Nests n (t :: ts) := by
  intro opened deepest hle
  rw [List.foldl_cons, ht]
  exact h opened deepest hle

theorem Nests.append {n m : Nat} {ts us : List Token} (h : Nests n ts) (h' : Nests m us) :
    Nests (max n m) (ts ++ us) := by
  intro opened deepest hle
  -- the second piece starts with as much open, but with all that the first one has reached
  have hle' : opened ≤ max deepest (opened + n) :=
    Nat.le_trans hle (Nat.le_max_left ..)
  rw [List.foldl_append, h opened deepest hle, h' opened _ hle']
  congr 1
  omega

/-- Parentheses around a piece are one level more, and close it. -/
theorem Nests.enclosed {n : Nat} {ts : List Token} (h : Nests n ts) :
    Nests (1 + n) (.leftParen :: (ts ++ [.rightParen])) := by
  intro opened deepest hle
  have hinner := h (opened + 1) (max deepest (opened + 1)) (Nat.le_max_right ..)
  rw [List.foldl_cons, List.foldl_append, nestToken, hinner, List.foldl_cons, List.foldl_nil,
    nestToken]
  congr 1
  omega

theorem nestToken_binary (op : BinaryOp) (levels : Nat × Nat) :
    nestToken levels op.token = levels := by
  cases op <;> rfl

theorem nestToken_sign (sign : Sign) (levels : Nat × Nat) :
    nestToken levels sign.token = levels := by
  cases sign <;> rfl

/-- The depth of the tree of a category, or of the deepest argument of a list. -/
def Category.depth : (c : Category) → c.Result → Nat :=
  Category.measure ParseTree.depth ParseTree.argumentsDepth

namespace Derivation

theorem tokens_ne_nil {c : Category} (d : Derivation c) : d.tokens ≠ [] := by
  induction d with
  | ofTerm _ ih | ofUnary _ ih | ofPower _ ih | ofPrimary _ ih | one _ ih => exact ih
  | _ => simp [tokens]

/-- A derivation nests as deep as its tree: groups and calls open levels, nothing else does. -/
theorem nests_tokens {c : Category} (d : Derivation c) : Nests (c.depth d.result) d.tokens := by
  -- one rule for each production: pieces side by side, or a piece in parentheses
  induction d with
  | ofTerm _ ih | ofUnary _ ih | ofPower _ ih | ofPrimary _ ih => exact ih
  | add left op right ihl ihr | multiply left op right ihl ihr =>
    exact ihl.append (ihr.cons (nestToken_binary op.op))
  | raise base exponent ihb ihe => exact ihb.append (ihe.cons fun _ => rfl)
  | signed sign operand ih => exact ih.cons (nestToken_sign sign)
  | number _ | name _ => exact nests_nil.cons fun _ => rfl
  | callEmpty function => exact nests_nil.enclosed.cons fun _ => rfl
  | call function arguments ih => exact ih.enclosed.cons fun _ => rfl
  | group inner ih => exact ih.enclosed
  | one argument ih =>
    have hdepth : Category.depth .arguments [argument.result] = argument.tree.depth :=
      Nat.max_zero _
    show Nests (Category.depth .arguments [argument.result]) argument.tokens
    rw [hdepth]
    exact ih
  | more before argument ihb iha =>
    have hdepth : Category.depth .arguments (before.result ++ [argument.result]) =
        max (Category.depth .arguments before.result) argument.tree.depth := by
      show ParseTree.argumentsDepth _ = max (ParseTree.argumentsDepth before.result) _
      rw [ParseTree.argumentsDepth_append, ParseTree.argumentsDepth, ParseTree.argumentsDepth,
        Nat.max_zero]
      rfl
    show Nests (Category.depth .arguments (before.result ++ [argument.result])) _
    rw [hdepth]
    exact ihb.append (iha.cons fun _ => rfl)

end Derivation

/-- **The nesting of a derived text** is the depth of its tree. -/
theorem nestingDepth_eq_depth {text : List Char} {d : Derivation .sum} (h : Cut text d.tokens) :
    nestingDepth (Text.trim text) = d.tree.depth := by
  have hlevels := d.nests_tokens 0 0 (Nat.le_refl 0)
  rw [nestingDepth_trim, nestingDepth_eq, h.foldl_nestChar, hlevels]
  exact (Nat.zero_max _).trans (Nat.zero_add _)

end Grammar

/-! ## What becomes of a derived text -/

open Spelling

theorem ParseTree.ofText_of_cut {text : String} {d : Derivation .sum}
    (h : Cut text.toList d.tokens) :
    ParseTree.ofText text =
      if maxNesting < d.tree.depth then .error .tooDeep
      else if maxNodes < d.tree.nodes then .error .tooComplex
      else .ok d.tree := by
  have hparse : ParseTree.parse text.toList = .ok d.tree :=
    ParseTree.parse_eq_ok_iff.2 ⟨d, h, rfl⟩
  simp only [ParseTree.ofText]
  rw [if_neg (h.trim_ne_nil d.tokens_ne_nil), nestingDepth_eq_depth h, hparse]

theorem Expr.ofText_of_cut {text : String} {d : Derivation .sum} (h : Cut text.toList d.tokens) :
    Expr.ofText text =
      if maxNesting < d.tree.depth then .error .tooDeep
      else if maxNodes < d.tree.nodes then .error .tooComplex
      else .ok d.expr := by
  rw [Expr.ofText, ParseTree.ofText_of_cut h]
  split
  · rfl
  · split <;> rfl

/-- An accepted text has a derivation within the limits. -/
theorem Expr.exists_derivation {text : String} {e : Expr} (h : Expr.ofText text = .ok e) :
    ∃ d : Derivation .sum, Cut text.toList d.tokens ∧ d.expr = e ∧ d.tree.depth ≤ maxNesting ∧
      d.tree.nodes ≤ maxNodes := by
  rw [Expr.ofText] at h
  cases htree : ParseTree.ofText text with
  | error cause =>
    rw [htree] at h
    cases h
  | ok tree =>
    rw [htree] at h
    obtain ⟨-, hdepth, hparse, hnodes⟩ := ParseTree.ofText_eq_ok_iff.1 htree
    obtain ⟨d, hcut, rfl⟩ := ParseTree.parse_eq_ok_iff.1 hparse
    rw [nestingDepth_eq_depth hcut] at hdepth
    exact ⟨d, hcut, Except.ok.inj h, hdepth, hnodes⟩

end CurveArt
