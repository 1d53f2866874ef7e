import CurveArt.Proofs.Expr.Depth
import CurveArt.Proofs.Expr.Reread

/-!
# Printing and reading

What becomes of an expression that was read from a text, printed and read again: as long as its own
text is within the limits of nesting and size, that text is read, and denotes `Expr.reread`. So the
expression comes back exactly if no power in it has a sign in front of its base and no number in it
is beyond all doubles.

Main results:

* `Expr.parse_text`: the text of an expression is always parsed.
* `Expr.ofText_text`: what is read from it, and when that is the expression itself.
-/

namespace CurveArt

open Grammar Spelling

/-! ## The text of an expression -/

namespace Expr

theorem tokens_ne_nil (e : Expr) : e.tokens ≠ [] := by
  cases e <;> exact List.cons_ne_nil _ _

/-- A printed expression is derived, and stands for the expression that is read. -/
theorem cut_text {e : Expr} (h : e.WellSpelled) :
    Cut e.text.toList (Derivation.ofExpr e).tokens := by
  have htokens := tokensOf_text e h separated_nil
  rw [List.append_nil, tokensOf_nil, List.append_nil, ← Derivation.tokens_ofExpr] at htokens
  exact cut_iff.2 ⟨htokens, Derivation.tokens_readable _⟩

theorem parse_text {e : Expr} (h : e.WellSpelled) :
    ParseTree.parse e.text.toList = .ok (Derivation.ofExpr e).tree :=
  ParseTree.parse_eq_ok_iff.2 ⟨_, cut_text h, rfl⟩

theorem trim_text_ne_nil {e : Expr} (h : e.WellSpelled) : Text.trim e.text.toList ≠ [] := by
  refine (cut_text h).trim_ne_nil ?_
  rw [Derivation.tokens_ofExpr]
  exact e.tokens_ne_nil

theorem wellSpelled_of_ofText {text : String} {e : Expr} (h : Expr.ofText text = .ok e) :
    e.WellSpelled := by
  obtain ⟨d, hcut, rfl, -, -⟩ := exists_derivation h
  exact wellSpelled_of_cut hcut

/-- The text nests within its limit, and so does the size of its parse tree, if it has one. -/
def WithinLimits (text : String) : Prop :=
  nestingDepth (Text.trim text.toList) ≤ maxNesting ∧
    ∀ tree, ParseTree.parse text.toList = .ok tree → tree.nodes ≤ maxNodes

instance (text : String) : Decidable (WithinLimits text) :=
  decidable_of_iff (nestingDepth (Text.trim text.toList) ≤ maxNesting ∧
    (ParseTree.parse text.toList).toOption.all (fun tree => decide (tree.nodes ≤ maxNodes))) <|
    and_congr_right fun _ => by
      cases ParseTree.parse text.toList with
      | error failure => simp [Except.toOption]
      | ok tree => simp [Except.toOption]

/-- **Reading a printed expression.** If the text of an expression that was read from a text is
within the limits, it is read as `reread` says, and so as the same expression exactly if that is
faithful. -/
theorem ofText_text {text : String} {e : Expr} (h : Expr.ofText text = .ok e)
    (hlimits : WithinLimits e.text) :
    Expr.ofText e.text = .ok e.reread ∧ (Expr.ofText e.text = .ok e ↔ e.Faithful) := by
  have hspelled := wellSpelled_of_ofText h
  have hparse := parse_text hspelled
  have htree : ParseTree.ofText e.text = .ok (Derivation.ofExpr e).tree :=
    ParseTree.ofText_eq_ok_iff.2
      ⟨trim_text_ne_nil hspelled, hlimits.1, hparse, hlimits.2 _ hparse⟩
  have hread : Expr.ofText e.text = .ok e.reread := by
    rw [Expr.ofText, htree, ← Derivation.expr_ofExpr]
    rfl
  refine ⟨hread, ?_⟩
  rw [hread, ← reread_eq_iff]
  exact ⟨Except.ok.inj, congrArg _⟩

theorem ofText_text_sum :
    ∃ e, Expr.ofText "-x ** 2 + max(y, .5)" = .ok e ∧ e.text = "(-(x ** 2) + max(y, 0.5))" ∧
      Expr.ofText e.text = .ok e.reread ∧ (Expr.ofText e.text = .ok e ↔ e.Faithful) := by
  have hprinted : (Expr.ofText "-x ** 2 + max(y, .5)").toOption.map Expr.text =
      some "(-(x ** 2) + max(y, 0.5))" := by decide +kernel
  obtain ⟨e, h, he⟩ := exists_of_map_text hprinted
  have hlimits : WithinLimits e.text := by
    rw [he]
    decide +kernel
  exact ⟨e, h, he, ofText_text h hlimits⟩

/-- A sign in front of a base is read as that of the power. -/
theorem signedBase_misread :
    ∃ e, Expr.ofText "(-x) ** 2" = .ok e ∧ e.text = "(-x ** 2)" ∧ WithinLimits e.text ∧
      Expr.ofText e.text ≠ .ok e := by
  have hprinted : (Expr.ofText "(-x) ** 2").toOption.map Expr.text = some "(-x ** 2)" := by
    decide +kernel
  have hagain : (Expr.ofText "(-x ** 2)").toOption.map Expr.text = some "-(x ** 2)" := by
    decide +kernel
  obtain ⟨e, h, he⟩ := exists_of_map_text hprinted
  obtain ⟨e', h', he'⟩ := exists_of_map_text hagain
  refine ⟨e, h, he, ?_, ?_⟩
  · rw [he]
    decide +kernel
  · -- the two expressions do not even print alike
    rw [he, h']
    intro hsame
    rw [Except.ok.inj hsame, he] at he'
    revert he'
    decide

end Expr

end CurveArt
