import CurveArt.Proofs.Expr.Constituents
import CurveArt.Proofs.Expr.Depth
import CurveArt.Proofs.Expr.Printed

/-!
# Other names in an expression

The names of an expression can be exchanged for others, and the names of the functions that it calls
stay what they are. Exchanging them in a derivation of a text gives a derivation of the same shape,
so the new expression is denoted by a text too: one with the new names in it.

Main results:

* `Derivation.result_mapNames`: a derivation with other names, read off its parse tree.
* `Expr.exists_ofText_mapNames`: an expression with other names is denoted by a text.
-/

namespace CurveArt

open Grammar Spelling

/-! ## Exchanging names -/

namespace Expr

mutual

/-- The expression with other names. The names of functions stay. -/
def mapNames (ρ : String → String) : Expr → Expr
  | .number value => .number value
  | .name word => .name (ρ word)
  | .call function arguments => .call function (mapAllNames ρ arguments)
  | .signed sign operand => .signed sign (operand.mapNames ρ)
  | .binary op left right => .binary op (left.mapNames ρ) (right.mapNames ρ)

def mapAllNames (ρ : String → String) : List Expr → List Expr
  | [] => []
  | e :: rest => e.mapNames ρ :: mapAllNames ρ rest

end

theorem mapAllNames_eq (ρ : String → String) (es : List Expr) :
    mapAllNames ρ es = es.map (mapNames ρ) := by
  induction es with
  | nil => rfl
  | cons e rest ih => rw [mapAllNames, ih, List.map_cons]

end Expr

namespace ParseTree

mutual

def mapNames (ρ : String → String) : ParseTree → ParseTree
  | .number value => .number value
  | .name word => .name (ρ word)
  | .call function arguments => .call function (mapAllNames ρ arguments)
  | .group inner => .group (inner.mapNames ρ)
  | .signed sign operand => .signed sign (operand.mapNames ρ)
  | .binary op left right => .binary op (left.mapNames ρ) (right.mapNames ρ)

def mapAllNames (ρ : String → String) : List ParseTree → List ParseTree
  | [] => []
  | tree :: rest => tree.mapNames ρ :: mapAllNames ρ rest

end

variable (ρ : String → String)

theorem mapAllNames_append (trees trees' : List ParseTree) :
    mapAllNames ρ (trees ++ trees') = mapAllNames ρ trees ++ mapAllNames ρ trees' := by
  induction trees with
  | nil => rfl
  | cons tree rest ih => exact congrArg (tree.mapNames ρ :: ·) ih

mutual

theorem expr_mapNames : (tree : ParseTree) → (tree.mapNames ρ).expr = tree.expr.mapNames ρ
  | .number _ | .name _ => rfl
  | .call function arguments => congrArg (Expr.call function) (exprs_mapAllNames arguments)
  | .group inner => expr_mapNames inner
  | .signed sign operand => congrArg (Expr.signed sign) (expr_mapNames operand)
  | .binary op left right =>
    congrArg₂ (Expr.binary op) (expr_mapNames left) (expr_mapNames right)

theorem exprs_mapAllNames : (trees : List ParseTree) →
    exprs (mapAllNames ρ trees) = Expr.mapAllNames ρ (exprs trees)
  | [] => rfl
  | tree :: rest => congrArg₂ List.cons (expr_mapNames tree) (exprs_mapAllNames rest)

end

mutual

theorem size_mapNames : (tree : ParseTree) → (tree.mapNames ρ).size = tree.size
  | .number _ | .name _ => rfl
  | .call _ arguments => congrArg (2 + ·) (argumentsSize_mapAllNames arguments)
  | .group inner => congrArg (1 + ·) (size_mapNames inner)
  | .signed _ operand => congrArg (1 + ·) (size_mapNames operand)
  | .binary _ left right =>
    congrArg₂ (1 + · + ·) (size_mapNames left) (size_mapNames right)

theorem argumentsSize_mapAllNames : (trees : List ParseTree) →
    argumentsSize (mapAllNames ρ trees) = argumentsSize trees
  | [] => rfl
  | tree :: rest =>
    congrArg₂ (1 + · + ·) (size_mapNames tree) (argumentsSize_mapAllNames rest)

end

theorem nodes_mapNames (tree : ParseTree) : (tree.mapNames ρ).nodes = tree.nodes :=
  congrArg (· + 3) (size_mapNames ρ tree)

mutual

theorem depth_mapNames : (tree : ParseTree) → (tree.mapNames ρ).depth = tree.depth
  | .number _ | .name _ => rfl
  | .call _ arguments => congrArg (1 + ·) (argumentsDepth_mapAllNames arguments)
  | .group inner => congrArg (1 + ·) (depth_mapNames inner)
  | .signed _ operand => depth_mapNames operand
  | .binary _ left right => congrArg₂ max (depth_mapNames left) (depth_mapNames right)

theorem argumentsDepth_mapAllNames : (trees : List ParseTree) →
    argumentsDepth (mapAllNames ρ trees) = argumentsDepth trees
  | [] => rfl
  | tree :: rest => congrArg₂ max (depth_mapNames tree) (argumentsDepth_mapAllNames rest)

end

end ParseTree

/-! ## Exchanging names in a derivation -/

namespace Grammar

/-- What a category stands for, with other names. -/
def Category.mapNames (ρ : String → String) : (c : Category) → c.Result → c.Result
  | .arguments, trees => ParseTree.mapAllNames ρ trees
  | .sum, tree | .term, tree | .unary, tree | .power, tree | .primary, tree => tree.mapNames ρ

namespace Derivation

/-- The derivation with other names. -/
def mapNames (ρ : String → String) {c : Category} : Derivation c → Derivation c
  | ofTerm term => ofTerm (term.mapNames ρ)
  | add left op right => add (left.mapNames ρ) op (right.mapNames ρ)
  | ofUnary unary => ofUnary (unary.mapNames ρ)
  | multiply left op right => multiply (left.mapNames ρ) op (right.mapNames ρ)
  | signed sign operand => signed sign (operand.mapNames ρ)
  | ofPower power => ofPower (power.mapNames ρ)
  | ofPrimary primary => ofPrimary (primary.mapNames ρ)
  | raise base exponent => raise (base.mapNames ρ) (exponent.mapNames ρ)
  | number value => number value
  | callEmpty function => callEmpty function
  | call function arguments => call function (arguments.mapNames ρ)
  | name word => name (ρ word)
  | group inner => group (inner.mapNames ρ)
  | one argument => one (argument.mapNames ρ)
  | more before argument => more (before.mapNames ρ) (argument.mapNames ρ)

variable {ρ : String → String}

theorem result_mapNames {c : Category} (d : Derivation c) :
    (d.mapNames ρ).result = c.mapNames ρ d.result := by
  induction d with
  | ofTerm _ ih | ofUnary _ ih | ofPower _ ih | ofPrimary _ ih => exact ih
  | add _ op _ ihl ihr => exact congrArg₂ (ParseTree.binary op.op) ihl ihr
  | multiply _ op _ ihl ihr => exact congrArg₂ (ParseTree.binary op.op) ihl ihr
  | raise _ _ ihb ihe => exact congrArg₂ (ParseTree.binary .power) ihb ihe
  | signed sign _ ih => exact congrArg (ParseTree.signed sign) ih
  | number | callEmpty | name => rfl
  | call function _ ih => exact congrArg (ParseTree.call function) ih
  | group _ ih => exact congrArg ParseTree.group ih
  | one _ ih => exact congrArg (fun tree => [tree]) ih
  | more before argument ihb iha =>
    have hlast : (argument.mapNames ρ).result = ParseTree.mapNames ρ argument.result := iha
    show (before.mapNames ρ).result ++ [(argument.mapNames ρ).result] =
      ParseTree.mapAllNames ρ (before.result ++ [argument.result])
    rw [ParseTree.mapAllNames_append, ihb, hlast]
    rfl

/-- A fact about tokens holds of those of a derivation with other names if it holds of the tokens of
the derivation and goes from every name to its new one. -/
theorem forall_tokens_mapNames {P : Token → Prop}
    (hρ : ∀ word, P (.name word) → P (.name (ρ word))) {c : Category} (d : Derivation c)
    (h : ∀ t ∈ d.tokens, P t) : ∀ t ∈ (d.mapNames ρ).tokens, P t := by
  -- one rule for each production; the name of a function is a token that stays
  induction d with
  | ofTerm _ ih | ofUnary _ ih | ofPower _ ih | ofPrimary _ ih | one _ ih => exact ih h
  | add _ _ _ ihl ihr | multiply _ _ _ ihl ihr | raise _ _ ihl ihr | more _ _ ihl ihr =>
    obtain ⟨hl, hr⟩ := List.forall_mem_append.1 h
    obtain ⟨hbetween, hr⟩ := List.forall_mem_cons.1 hr
    exact List.forall_mem_append.2 ⟨ihl hl, List.forall_mem_cons.2 ⟨hbetween, ihr hr⟩⟩
  | signed _ _ ih =>
    obtain ⟨hsign, hoperand⟩ := List.forall_mem_cons.1 h
    exact List.forall_mem_cons.2 ⟨hsign, ih hoperand⟩
  | number | callEmpty => exact h
  | name word => exact List.forall_mem_singleton.2 (hρ word (List.forall_mem_singleton.1 h))
  | call _ _ ih =>
    obtain ⟨hfunction, hrest⟩ := List.forall_mem_cons.1 h
    obtain ⟨hopen, hrest⟩ := List.forall_mem_cons.1 hrest
    obtain ⟨harguments, hclose⟩ := List.forall_mem_append.1 hrest
    exact List.forall_mem_cons.2 ⟨hfunction, List.forall_mem_cons.2
      ⟨hopen, List.forall_mem_append.2 ⟨ih harguments, hclose⟩⟩⟩
  | group _ ih =>
    obtain ⟨hopen, hrest⟩ := List.forall_mem_cons.1 h
    obtain ⟨hinner, hclose⟩ := List.forall_mem_append.1 hrest
    exact List.forall_mem_cons.2 ⟨hopen, List.forall_mem_append.2 ⟨ih hinner, hclose⟩⟩

end Derivation

end Grammar

/-! ## Texts for derivations -/

namespace Spelling

/-- Every token of a text is spelled somewhere in it. -/
theorem Cut.exists_spells {text : List Char} {ts : List Token} (h : Cut text ts) :
    ∀ t ∈ ts, ∃ part, Spells part t := by
  induction h with
  | nil => nofun
  | skip _ _ ih => exact ih
  | token ht _ _ ih => exact List.forall_mem_cons.2 ⟨⟨_, ht⟩, ih⟩

/-- Spellings with blanks between them are cut where they end. -/
theorem exists_cut_of_spells {ts : List Token} (h : ∀ t ∈ ts, ∃ part, Spells part t) :
    ∃ text, Cut text ts := by
  induction ts with
  | nil => exact ⟨[], .nil⟩
  | cons t ts ih =>
    obtain ⟨⟨part, hpart⟩, hts⟩ := List.forall_mem_cons.1 h
    obtain ⟨rest, hrest⟩ := ih hts
    have hblank := Cut.skip (show Token.isSkipped ' ' = true from rfl) hrest
    exact ⟨part ++ ' ' :: rest, hpart.cut.append hblank (ends_cons rfl (by decide) _ _)⟩

end Spelling

/-- **Other names in a text.** What a text denotes, with other names in it, is denoted by a text as
well. -/
theorem Expr.exists_ofText_mapNames {text : String} {e : Expr} (h : Expr.ofText text = .ok e)
    {ρ : String → String} (hρ : ∀ word : String, IsName word.toList → IsName (ρ word).toList) :
    ∃ text', Expr.ofText text' = .ok (e.mapNames ρ) := by
  obtain ⟨d, hcut, rfl, hdepth, hnodes⟩ := Expr.exists_derivation h
  -- the numbers keep the spelling that they have in the text, which need not be the printed one
  have htree : (d.mapNames ρ).tree = d.tree.mapNames ρ := d.result_mapNames
  have hspelled : ∀ t ∈ (d.mapNames ρ).tokens, ∃ part, Spells part t := by
    refine d.forall_tokens_mapNames ?_ hcut.exists_spells
    rintro word ⟨part, hpart⟩
    exact ⟨_, spells_name (hρ word hpart.spelled)⟩
  obtain ⟨text', hcut'⟩ := exists_cut_of_spells hspelled
  refine ⟨String.ofList text', ?_⟩
  -- the limits are those of the old text, since the tree has the same shape
  rw [Expr.ofText_of_cut (by rwa [String.toList_ofList]), Derivation.expr, htree,
    ParseTree.depth_mapNames, if_neg (Nat.not_lt.2 hdepth), ParseTree.nodes_mapNames,
    if_neg (Nat.not_lt.2 hnodes), ParseTree.expr_mapNames]
  rfl

end CurveArt
