import CurveArt.Proofs.Expr.ShiftReduce

/-!
# Which texts are expressions

Cutting and parsing together: a text denotes an expression exactly if it can be cut into tokens that
the grammar derives, and is within the limits of size and nesting. Whatever the grammar derives is
then accepted as it stands; there is no later stage that could still refuse it.

Main results:

* `ParseTree.parse_eq_ok_iff`: the parse tree of a text is that of its derivation.
* `Expr.ofText_eq_ok_iff_derived`: the accepted texts, the expression of each, and that there is
  only one.
-/

namespace CurveArt

open Grammar Spelling

/-- A text has a parse tree exactly if the tokens it is cut into have a derivation. -/
theorem ParseTree.parse_eq_ok_iff {text : List Char} {tree : ParseTree} :
    ParseTree.parse text = .ok tree ↔
      ∃ d : Derivation .sum, Cut text d.tokens ∧ d.tree = tree := by
  rw [ParseTree.parse, Parser.run_eq_ok_iff]
  show Parser.accepted? (tokensOf text) = some tree ↔ _
  rw [Parser.accepts_iff]
  constructor
  · rintro ⟨d, htokens, htree⟩
    exact ⟨d, cut_iff.2 ⟨htokens.symm, d.tokens_readable⟩, htree⟩
  · rintro ⟨d, hcut, htree⟩
    exact ⟨d, (cut_iff.1 hcut).1.symm, htree⟩

/-- No text has two derivations. -/
theorem derivation_unique_of_cut {text : List Char} {d d' : Derivation .sum}
    (h : Cut text d.tokens) (h' : Cut text d'.tokens) : d = d' :=
  Parser.derivation_unique ((cut_iff.1 h).1.symm.trans (cut_iff.1 h').1)

/-- The checks around the parser, in their order. -/
theorem ParseTree.ofText_eq_ok_iff {text : String} {tree : ParseTree} :
    ParseTree.ofText text = .ok tree ↔
      Text.trim text.toList ≠ [] ∧ nestingDepth (Text.trim text.toList) ≤ maxNesting ∧
        ParseTree.parse text.toList = .ok tree ∧ tree.nodes ≤ maxNodes := by
  simp only [ParseTree.ofText]
  split
  · next h => simp [h]
  · next hne =>
    split
    · next hdeep => simp [Nat.not_le.2 hdeep]
    · next hdepth =>
      cases hparse : ParseTree.parse text.toList with
      | error failure => simp
      | ok tree' =>
        simp only [Except.ok.injEq]
        split
        · next hlarge =>
          simp only [reduceCtorEq, false_iff, not_and]
          rintro - - rfl
          exact Nat.not_le.2 hlarge
        · next hnodes =>
          constructor
          · intro h
            obtain rfl := Except.ok.inj h
            exact ⟨hne, Nat.not_lt.1 hdepth, rfl, Nat.not_lt.1 hnodes⟩
          · rintro ⟨-, -, rfl, -⟩
            rfl

/-- **The accepted texts.** A text that is not blank and nests within its limit denotes the
expression `e` exactly if maximal munch cuts it into tokens that the grammar derives, with a tree
within the limit of size that stands for `e`. It never has a second derivation, and every numeral
among its tokens has a value. -/
theorem Expr.ofText_eq_ok_iff_derived (text : String) :
    (∀ e, Expr.ofText text = .ok e ↔
      Text.trim text.toList ≠ [] ∧ nestingDepth (Text.trim text.toList) ≤ maxNesting ∧
        ∃ d : Derivation .sum, Cut text.toList d.tokens ∧ d.tree.nodes ≤ maxNodes ∧ d.expr = e) ∧
    (∀ d d' : Derivation .sum,
      Cut text.toList d.tokens → Cut text.toList d'.tokens → d = d') ∧
    (∀ numeral, Decimal.IsNumeral numeral → ∃ value, Decimal.number? numeral = some value) := by
  refine ⟨fun e => ?_, fun d d' => derivation_unique_of_cut, fun _ h => h.exists_number?⟩
  rw [Expr.ofText]
  constructor
  · intro h
    cases htree : ParseTree.ofText text with
    | error cause =>
      rw [htree] at h
      cases h
    | ok tree =>
      rw [htree] at h
      obtain rfl := Except.ok.inj h
      obtain ⟨hne, hdepth, hparse, hnodes⟩ := ParseTree.ofText_eq_ok_iff.1 htree
      obtain ⟨d, hcut, rfl⟩ := ParseTree.parse_eq_ok_iff.1 hparse
      exact ⟨hne, hdepth, d, hcut, hnodes, rfl⟩
  · -- a derivation within the limits passes every check, and no check comes after the parser
    rintro ⟨hne, hdepth, d, hcut, hnodes, rfl⟩
    have hparse := ParseTree.parse_eq_ok_iff.2 ⟨d, hcut, rfl⟩
    rw [ParseTree.ofText_eq_ok_iff.2 ⟨hne, hdepth, hparse, hnodes⟩]
    rfl

theorem Expr.exists_of_map_text {text printed : String}
    (h : (Expr.ofText text).toOption.map Expr.text = some printed) :
    ∃ e, Expr.ofText text = .ok e ∧ e.text = printed := by
  cases hread : Expr.ofText text with
  | error cause =>
    rw [hread] at h
    cases h
  | ok e =>
    rw [hread] at h
    exact ⟨e, rfl, Option.some.inj h⟩

/-- A sign holds looser than a power to its right, and a power may have a sign in its exponent. -/
example : (Expr.ofText "-x ** -y").toOption.map Expr.text = some "-(x ** -y)" := by decide +kernel

end CurveArt
