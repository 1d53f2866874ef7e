import CurveArt.Proofs.Expr.Constituents
import Mathlib.Logic.Relation

/-!
# Spellings of one expression

What a text means does not depend on how its tokens are spelled and set apart. More may be skipped
wherever a token ends, a power may be written either way, and parentheses around a constituent say
what is meant anyway. The first two leave the tokens as they are, so the parse tree stays; the third
adds a group to it.

Only one of these could go wrong: where a power is written with stars directly behind a product
sign, the three stars are cut differently. The grammar has no place for a power there.

Main results:

* `Respells.cut`: a text that is spelled differently is cut into the same tokens.
* `Expr.ofText_respelled`: what is read from such a text, and from one with more parentheses.
-/

namespace CurveArt

open Grammar Spelling

/-! ## Powers behind products -/

/-- No derived text has a power directly behind a product sign. -/
theorem Grammar.Derivation.getLast?_ne_times (d : Derivation .sum) {ts us : List Token}
    (h : d.tokens = ts ++ .power :: us) : ts.getLast? ≠ some .times := by
  intro hlast
  obtain ⟨front, rfl⟩ := List.getLast?_eq_some_iff.1 hlast
  have haccepted := Parser.accepted?_tokens d
  obtain ⟨σ, hsteps, -⟩ := Option.bind_eq_some_iff.1 haccepted
  rw [h, List.append_assoc] at hsteps
  -- behind the product sign an operand has to follow
  obtain ⟨τ, -, hstep⟩ := Parser.exists_steps?_of_append hsteps
  cases τ <;> cases hstep

namespace Spelling

/-! ## Texts that are spelled differently -/

/-- No token goes across the place between the two texts. -/
def IsBoundary (before after : List Char) : Prop :=
  ∃ ts, CutBefore after before ts

/-- The same text with one place of it spelled differently. -/
inductive Respells : List Char → List Char → Prop where
  /-- More is skipped in front of a token, or at the end. -/
  | gap {before gap after : List Char} (h : IsBoundary before after)
    (hgap : ∀ c ∈ gap, Token.isSkipped c = true) :
    Respells (before ++ after) (before ++ (gap ++ after))
  /-- A power is written the other way. -/
  | power {before old new after : List Char} (h : IsBoundary before (old ++ after))
    (hold : Spells old .power) (hnew : Spells new .power) :
    Respells (before ++ (old ++ after)) (before ++ (new ++ after))

/-- A derived text that is spelled differently is cut into the same tokens. -/
theorem Respells.cut {text text' : List Char} (h : Respells text text') {d : Derivation .sum}
    (hcut : Cut text d.tokens) : Cut text' d.tokens := by
  cases h with
  | @gap before gap after h hgap =>
    obtain ⟨ts, hbefore⟩ := h
    obtain ⟨us, htokens, hafter⟩ := hbefore.exists_cut hcut
    rw [htokens]
    cases gap with
    | nil => exact hbefore.append hafter
    | cons c gap =>
      -- what is skipped ends the token in front of it
      obtain ⟨hinner, hstar⟩ := not_isInner_of_isSkipped (hgap c (List.mem_cons_self ..))
      exact hbefore.cut.append (hafter.gap hgap) (ends_cons hinner hstar ts _)
  | @power before old new after h hold hnew =>
    obtain ⟨ts, hbefore⟩ := h
    obtain ⟨vs, htokens, hpower⟩ := hbefore.exists_cut hcut
    obtain ⟨us, rfl, hafter⟩ := (cutBefore_power hold after).exists_cut hpower
    rw [htokens]
    refine hbefore.cut.append ((cutBefore_power hnew after).append hafter) ?_
    -- a star could only make a power of a product sign
    intro c hc
    refine ⟨?_, fun _ => d.getLast?_ne_times htokens⟩
    rcases hnew.power_cases with rfl | rfl <;> obtain rfl := Option.some.inj hc <;> rfl

theorem cut_of_respells {text text' : List Char} (h : Relation.ReflTransGen Respells text text')
    {d : Derivation .sum} (hcut : Cut text d.tokens) : Cut text' d.tokens := by
  induction h with
  | refl => exact hcut
  | tail _ hlast ih => exact hlast.cut ih

/-! ## Parentheses around a constituent -/

/-- The text of the derivation, with parentheses around a constituent and what is skipped beside it.
-/
inductive Encloses (d : Derivation .sum) : List Char → List Char → Prop where
  | mk {c : Category} (hc : c ≠ .arguments) (context : Context c .sum) (inner : Derivation c)
    (hd : context.fill inner = d) {before part after : List Char}
    (hbefore : CutBefore (part ++ after) before context.before)
    (hpart : CutBefore after part inner.tokens) :
    Encloses d (before ++ (part ++ after)) (before ++ '(' :: (part ++ ')' :: after))

/-- A text with parentheses around a constituent of it is derived, with one group more. -/
theorem Encloses.exists_derivation {text text' : List Char} {d : Derivation .sum}
    (h : Encloses d text text') (hcut : Cut text d.tokens) :
    ∃ d' : Derivation .sum, Cut text' d'.tokens ∧ d'.expr = d.expr ∧
      d'.tree.nodes = d.tree.nodes + 1 := by
  cases h with
  | mk hc context inner hd hbefore hpart =>
    obtain ⟨d', htokens, hexpr, hnodes⟩ := Derivation.exists_fill_enclosed hc context inner
    rw [hd] at hexpr hnodes
    refine ⟨d', ?_, hexpr, hnodes⟩
    -- what stands behind the constituent is what its context has behind it
    obtain ⟨us, hus, hrest⟩ := hbefore.exists_cut hcut
    obtain ⟨right, hright, hafter⟩ := hpart.exists_cut hrest
    have hafter' : right = context.after := by
      rw [← hd, context.tokens_fill, hright] at hus
      exact (List.append_cancel_left (List.append_cancel_left hus)).symm
    subst hafter'
    have hclosed := hpart.cut.append (hafter.single (c := ')') (by simp [singles]))
      (ends_cons rfl (by decide) _ _)
    rw [htokens]
    exact hbefore.cut.append (hclosed.single (c := '(') (by simp [singles]))
      (ends_cons rfl (by decide) _ _)

end Spelling

/-! ## What is read -/

/-- **Spellings of one expression.** A text that differs from an accepted one only in what is
skipped between its tokens and in how its powers are written has the same parse tree. One with
parentheses around a constituent has one node more and, if it is still within the limits, denotes
the same expression. -/
theorem Expr.ofText_respelled {text : String} {e : Expr} (h : Expr.ofText text = .ok e) :
    ∃ d : Derivation .sum, Cut text.toList d.tokens ∧ ParseTree.ofText text = .ok d.tree ∧
      d.expr = e ∧
      (∀ text' : String, Relation.ReflTransGen Respells text.toList text'.toList →
        ParseTree.ofText text' = .ok d.tree ∧ Expr.ofText text' = .ok e) ∧
      (∀ text' : String, Encloses d text.toList text'.toList →
        ∃ tree, ParseTree.parse text'.toList = .ok tree ∧ tree.expr = e ∧
          tree.nodes = d.tree.nodes + 1 ∧
          (nestingDepth (Text.trim text'.toList) ≤ maxNesting → tree.nodes ≤ maxNodes →
            Expr.ofText text' = .ok e)) := by
  obtain ⟨d, hcut, hexpr, hdepth, hnodes⟩ := Expr.exists_derivation h
  -- the limits are judged on the tree, and that stays with the tokens
  have hread : ∀ text' : String, Cut text'.toList d.tokens →
      ParseTree.ofText text' = .ok d.tree := by
    intro text' hcut'
    rw [ParseTree.ofText_of_cut hcut', if_neg (Nat.not_lt.2 hdepth), if_neg (Nat.not_lt.2 hnodes)]
  refine ⟨d, hcut, hread text hcut, hexpr, ?_, ?_⟩
  · intro text' hrespells
    have htree := hread text' (cut_of_respells hrespells hcut)
    refine ⟨htree, ?_⟩
    rw [Expr.ofText, htree, ← hexpr]
    rfl
  · intro text' hencloses
    obtain ⟨d', hcut', hexpr', hnodes'⟩ := hencloses.exists_derivation hcut
    have hparse : ParseTree.parse text'.toList = .ok d'.tree :=
      ParseTree.parse_eq_ok_iff.2 ⟨d', hcut', rfl⟩
    refine ⟨d'.tree, hparse, hexpr'.trans hexpr, hnodes', ?_⟩
    intro hdepth' hlimit
    rw [nestingDepth_eq_depth hcut'] at hdepth'
    rw [Expr.ofText_of_cut hcut', if_neg (Nat.not_lt.2 hdepth'), if_neg (Nat.not_lt.2 hlimit),
      hexpr', hexpr]

/-- The other sign for a power with a tab in front of it, and parentheses around the whole text. -/
theorem Expr.ofText_respelled_power :
    ∃ e, Expr.ofText "x**y" = .ok e ∧ e.text = "(x ** y)" ∧ Expr.ofText "x\t^y" = .ok e ∧
      Expr.ofText "(x**y)" = .ok e := by
  have hprinted : (Expr.ofText "x**y").toOption.map Expr.text = some "(x ** y)" := by
    decide +kernel
  obtain ⟨e, hread, hprinted⟩ := Expr.exists_of_map_text hprinted
  obtain ⟨d, hcut, htree, -, hspelled, henclosed⟩ := Expr.ofText_respelled hread
  have hname : Spells ['x'] (.name "x") := .name (.word (.mk (by decide) nofun))
  have hpower : ∀ {text : List Char}, Spells text .power →
      IsBoundary ['x'] (text ++ ['y']) := by
    intro text h
    refine ⟨_, hname.cut.cutBefore ?_⟩
    rcases h.power_cases with rfl | rfl <;> intro c hc <;> obtain rfl := Option.some.inj hc <;>
      exact ⟨rfl, fun _ => nofun⟩
  have hstars : Spells ['*', '*'] .power := .symbol (by simp [symbols])
  have hcaret : Spells ['^'] .power := .symbol (by simp [symbols])
  refine ⟨e, hread, hprinted, (hspelled _ ?_).2, ?_⟩
  · exact (Relation.ReflTransGen.single (.power (hpower hstars) hstars hcaret)).tail
      (@Respells.gap ['x'] ['\t'] ['^', 'y'] (hpower hcaret) (List.forall_mem_singleton.2 rfl))
  · have hwhole := @Encloses.mk d .sum (by decide) .here d rfl [] _ [] .nil
      (hcut.cutBefore (ends_nil _))
    obtain ⟨tree, hparse, -, hnodes, hlimits⟩ := henclosed "(x**y)" hwhole
    have hsize : d.tree.nodes + 1 ≤ maxNodes := by
      have hnodes' : (ParseTree.ofText "x**y").toOption.all
          (fun tree => decide (tree.nodes + 1 ≤ maxNodes)) = true := by decide +kernel
      rw [htree] at hnodes'
      exact of_decide_eq_true hnodes'
    exact hlimits (by decide) (hnodes ▸ hsize)

end CurveArt
