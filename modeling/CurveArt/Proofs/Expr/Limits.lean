import CurveArt.Proofs.Expr.Phrases
import CurveArt.Proofs.Formula.Scope

/-!
# How large an expression can get

The limits are checked on a text and on its parse tree, but what they are for is the expression that
is walked recursively afterwards. The size of a parse tree counts every constructor of its
expression, and on top of that each call once more for its name, every argument and every group. So
a text within the limit of size has an expression with at most as many constructors as there are
nodes left beside those of the text, of its outermost expression and of its end; resolving names
adds none.

Main results:

* `ParseTree.size_eq`: the size of a tree in terms of its expression.
* `Expr.ofText_limits`: what the limits refuse of the texts that the grammar derives, and how large
  an expression or a term is that passes.
-/

namespace CurveArt

open Grammar Spelling

/-! ## Counting places -/

namespace Expr

mutual

/-- The weights of all places of an expression together. -/
def total (weight : Expr → Nat) : Expr → Nat
  | .number value => weight (.number value)
  | .name word => weight (.name word)
  | .call function arguments =>
    weight (.call function arguments) + argumentsTotal weight arguments
  | .signed sign operand => weight (.signed sign operand) + operand.total weight
  | .binary op left right => weight (.binary op left right) + left.total weight + right.total weight

def argumentsTotal (weight : Expr → Nat) : List Expr → Nat
  | [] => 0
  | e :: rest => e.total weight + argumentsTotal weight rest

end

def constructors : Expr → Nat :=
  total fun _ => 1

def isCall : Expr → Nat
  | .call _ _ => 1
  | _ => 0

def calls : Expr → Nat :=
  total isCall

def ownArguments : Expr → Nat
  | .call _ arguments => arguments.length
  | _ => 0

/-- The arguments of all calls. -/
def argumentCount : Expr → Nat :=
  total ownArguments

end Expr

namespace ParseTree

mutual

def groups : ParseTree → Nat
  | .number _ => 0
  | .name _ => 0
  | .call _ arguments => argumentsGroups arguments
  | .group inner => 1 + inner.groups
  | .signed _ operand => operand.groups
  | .binary _ left right => left.groups + right.groups

def argumentsGroups : List ParseTree → Nat
  | [] => 0
  | tree :: rest => tree.groups + argumentsGroups rest

end

theorem length_exprs (trees : List ParseTree) : (exprs trees).length = trees.length := by
  induction trees with
  | nil => rfl
  | cons tree rest ih => exact congrArg (· + 1) ih

mutual

/-- **The size of a tree.** It counts the constructors of the expression, the names and arguments of
its calls, and the groups. -/
theorem size_eq (tree : ParseTree) :
    tree.size =
      tree.expr.constructors + tree.expr.calls + tree.expr.argumentCount + tree.groups := by
  -- what a place adds to the size is what it adds to the counts, and the rest is in its parts
  match tree with
  | .number _ | .name _ => rfl
  | .group inner =>
    have hinner := size_eq inner
    simp only [size, groups, expr, hinner]
    omega
  | .signed _ operand =>
    have hoperand := size_eq operand
    simp only [Expr.constructors, Expr.calls, Expr.argumentCount] at hoperand
    simp only [size, groups, expr, Expr.constructors, Expr.calls, Expr.argumentCount, Expr.total,
      Expr.isCall, Expr.ownArguments, hoperand]
    omega
  | .binary _ left right =>
    have hleft := size_eq left
    have hright := size_eq right
    simp only [Expr.constructors, Expr.calls, Expr.argumentCount] at hleft hright
    simp only [size, groups, expr, Expr.constructors, Expr.calls, Expr.argumentCount, Expr.total,
      Expr.isCall, Expr.ownArguments, hleft, hright]
    omega
  | .call _ arguments =>
    -- one for the call, one for its name, and one for each argument beside its own size
    have harguments := argumentsSize_eq arguments
    simp only [size, groups, expr, Expr.constructors, Expr.calls, Expr.argumentCount, Expr.total,
      Expr.isCall, Expr.ownArguments, harguments, length_exprs]
    omega

theorem argumentsSize_eq (trees : List ParseTree) :
    argumentsSize trees = Expr.argumentsTotal (fun _ => 1) (exprs trees) +
      Expr.argumentsTotal Expr.isCall (exprs trees) +
      (trees.length + Expr.argumentsTotal Expr.ownArguments (exprs trees)) +
      argumentsGroups trees := by
  match trees with
  | [] => rfl
  | tree :: rest =>
    have htree := size_eq tree
    have hrest := argumentsSize_eq rest
    simp only [Expr.constructors, Expr.calls, Expr.argumentCount] at htree
    simp only [argumentsSize, argumentsGroups, exprs, Expr.argumentsTotal, htree, hrest,
      List.length_cons]
    omega

end

end ParseTree

/-! ## Opening parentheses -/

def Token.opens : Token → Bool
  | .leftParen => true
  | _ => false

namespace Spelling

theorem count_of_inner {text : List Char} (h : ∀ c ∈ text, isInner c = true) :
    text.count '(' = 0 :=
  List.count_eq_zero_of_not_mem fun hmem => (not_parenthesis_of_isInner (h _ hmem)).1 rfl

theorem Spells.count_eq {text : List Char} {t : Token} (h : Spells text t) :
    text.count '(' = [t].countP Token.opens := by
  cases h with
  | number h => exact count_of_inner (inner_of_isNumeral h)
  | name h => exact count_of_inner (inner_of_isName h)
  | symbol h =>
    simp only [symbols, List.mem_cons, Prod.mk.injEq, List.not_mem_nil, or_false] at h
    rcases h with h | h | h | h | h | h | h | h | h <;> rw [h.1, h.2] <;> rfl

/-- No opening parenthesis of a text is part of a longer token. -/
theorem Cut.count_eq {text : List Char} {ts : List Token} (h : Cut text ts) :
    text.count '(' = ts.countP Token.opens := by
  induction h with
  | nil => rfl
  | skip hc _ ih => rw [List.count_cons_of_ne (not_parenthesis_of_isSkipped hc).1, ih]
  | @token part text t ts ht _ _ ih =>
    rw [List.count_append, ht.count_eq, ih, ← List.countP_append, List.singleton_append]

end Spelling

namespace ParseTree

/-- The groups and the calls of a tree. -/
def opened (tree : ParseTree) : Nat :=
  tree.groups + tree.expr.calls

/-- The groups and the calls of all arguments in a list. -/
def argumentsOpened (trees : List ParseTree) : Nat :=
  argumentsGroups trees + Expr.argumentsTotal Expr.isCall (exprs trees)

theorem opened_call (function : String) (arguments : List ParseTree) :
    (call function arguments).opened = 1 + argumentsOpened arguments := by
  simp only [opened, argumentsOpened, groups, expr, Expr.calls, Expr.total, Expr.isCall]
  omega

theorem opened_binary (op : BinaryOp) (left right : ParseTree) :
    (binary op left right).opened = left.opened + right.opened := by
  simp only [opened, groups, expr, Expr.calls, Expr.total, Expr.isCall]
  omega

theorem opened_group (inner : ParseTree) : (group inner).opened = 1 + inner.opened :=
  Nat.add_assoc ..

theorem opened_signed (sign : Sign) (operand : ParseTree) :
    (signed sign operand).opened = operand.opened := by
  simp only [opened, groups, expr, Expr.calls, Expr.total, Expr.isCall, Nat.zero_add]

theorem argumentsOpened_append (trees : List ParseTree) (tree : ParseTree) :
    argumentsOpened (trees ++ [tree]) = argumentsOpened trees + tree.opened := by
  induction trees with
  | nil => simp [argumentsOpened, argumentsGroups, exprs, Expr.argumentsTotal, opened, Expr.calls]
  | cons first rest ih =>
    simp only [argumentsOpened, argumentsGroups, exprs, Expr.argumentsTotal,
      List.cons_append] at ih ⊢
    omega

end ParseTree

namespace Grammar

def Category.opened : (c : Category) → c.Result → Nat :=
  Category.measure ParseTree.opened ParseTree.argumentsOpened

theorem opens_binary (op : BinaryOp) : op.token.opens = false := by
  cases op <;> rfl

theorem opens_sign (sign : Sign) : sign.token.opens = false := by
  cases sign <;> rfl

/-- Every opening parenthesis of a derivation is that of a group or of a call. -/
theorem Derivation.countP_opens {c : Category} (d : Derivation c) :
    d.tokens.countP Token.opens = c.opened d.result := by
  -- a group and a call with its arguments have one such token of their own, nothing else has any
  induction d with
  | ofTerm _ ih | ofUnary _ ih | ofPower _ ih | ofPrimary _ ih => exact ih
  | add left op right ihl ihr | multiply left op right ihl ihr =>
    rw [tokens, List.countP_append, List.countP_cons_of_neg (by simp [opens_binary]), ihl, ihr]
    exact (ParseTree.opened_binary ..).symm
  | raise base exponent ihb ihe =>
    rw [tokens, List.countP_append, List.countP_cons_of_neg (by simp [Token.opens]), ihb, ihe]
    exact (ParseTree.opened_binary ..).symm
  | signed sign operand ih =>
    rw [tokens, List.countP_cons_of_neg (by simp [opens_sign]), ih]
    exact (ParseTree.opened_signed ..).symm
  | number _ | name _ | callEmpty _ => rfl
  | call function arguments ih =>
    have hclosed : [Token.rightParen].countP Token.opens = 0 := rfl
    rw [tokens, List.countP_cons_of_neg (by simp [Token.opens]), List.countP_cons_of_pos rfl,
      List.countP_append, ih, hclosed, Nat.add_zero, Nat.add_comm]
    exact (ParseTree.opened_call ..).symm
  | group inner ih =>
    have hclosed : [Token.rightParen].countP Token.opens = 0 := rfl
    rw [tokens, List.countP_cons_of_pos rfl, List.countP_append, ih, hclosed, Nat.add_zero,
      Nat.add_comm]
    exact (ParseTree.opened_group ..).symm
  | one argument ih =>
    rw [tokens, ih]
    exact ((ParseTree.argumentsOpened_append [] _).trans (Nat.zero_add _)).symm
  | more before argument ihb iha =>
    rw [tokens, List.countP_append, List.countP_cons_of_neg (by simp [Token.opens]), ihb, iha]
    exact (ParseTree.argumentsOpened_append ..).symm

end Grammar

/-! ## Resolved terms -/

namespace Term

def constructors {n : Nat} : Term n → Nat
  | .apply _ argument => 1 + argument.constructors
  | .negate operand => 1 + operand.constructors
  | .binary _ left right => 1 + left.constructors + right.constructors
  | _ => 1

theorem constructors_ofName (vars : List String) (word : String) :
    (ofName vars word).constructors = 1 := by
  unfold ofName
  split
  · rfl
  · split <;> rfl

/-- Looking names up makes no expression larger: a place becomes one place, or is gone with what was
in it. -/
theorem constructors_resolve (vars : List String) (e : Expr) :
    (resolve vars e).constructors ≤ e.constructors := by
  fun_induction resolve vars e with
  | case1 value => exact Nat.le_refl 1
  | case2 word => exact Nat.le_of_eq (constructors_ofName vars word)
  | case3 | case4 | case6 => simp [constructors, Expr.constructors, Expr.total]
  | case5 function f argument hf ih => exact Nat.add_le_add_left ih 1
  | case7 operand ih => exact Nat.le_add_left_of_le ih
  | case8 operand ih => exact Nat.add_le_add_left ih 1
  | case9 op left right ihl ihr => exact Nat.add_le_add (Nat.add_le_add_left ihl 1) ihr

end Term

/-! ## What the limits admit -/

/-- **The limits.** A text that the grammar derives nests as deep as its parse tree. It is refused
for its depth or, if that is within its limit, for the number of its nodes, and for nothing else.
The nodes are those of the expression, and so no expression that is resolved and no term that is
evaluated has more than 497 constructors. -/
theorem Expr.ofText_limits (text : String) :
    (∀ p : Phrase .sum, Cut text.toList p.tokens →
      ∃ tree, ParseTree.parse text.toList = .ok tree ∧
        nestingDepth (Text.trim text.toList) = tree.depth ∧
        (Expr.ofText text =
          if maxNesting < tree.depth then .error .tooDeep
          else if maxNodes < p.textNodes then .error .tooComplex
          else .ok tree.expr) ∧
        p.textNodes =
          3 + tree.expr.constructors + tree.expr.calls + tree.expr.argumentCount + tree.groups ∧
        text.toList.count '(' = tree.groups + tree.expr.calls) ∧
    (∀ tree, ParseTree.parse text.toList = .ok tree →
      ∃ p : Phrase .sum, Cut text.toList p.tokens) ∧
    (∀ e, Expr.ofText text = .ok e → e.constructors ≤ 497) ∧
    (∀ vars stream f, Formula.compile text vars stream = .ok f → f.body.constructors ≤ 497) := by
  -- the expression of an accepted text is that of a tree within the limit of size
  have hlarge : ∀ e, Expr.ofText text = .ok e → e.constructors ≤ 497 := by
    intro e h
    obtain ⟨d, -, rfl, -, hnodes⟩ := Expr.exists_derivation h
    have hsize := ParseTree.size_eq d.tree
    have hexpr : d.expr.constructors = d.tree.expr.constructors := rfl
    simp only [ParseTree.nodes, maxNodes] at hnodes
    omega
  refine ⟨?_, ?_, hlarge, ?_⟩
  · -- the phrase has a derivation with ranks, and the text no other one
    intro p hcut
    obtain ⟨d, htokens, hsize⟩ := p.exists_derivation
    rw [← htokens] at hcut
    have hnodes : p.textNodes = d.tree.nodes := by
      have hsize : d.tree.size = p.nodes := hsize
      simp only [Phrase.textNodes, ParseTree.nodes, hsize]
      omega
    refine ⟨d.tree, ParseTree.parse_eq_ok_iff.2 ⟨d, hcut, rfl⟩, nestingDepth_eq_depth hcut, ?_, ?_,
      ?_⟩
    · rw [hnodes]
      exact Expr.ofText_of_cut hcut
    · rw [hnodes, ParseTree.nodes, ParseTree.size_eq]
      omega
    · rw [hcut.count_eq, d.countP_opens]
      rfl
  · intro tree hparse
    obtain ⟨d, hcut, -⟩ := ParseTree.parse_eq_ok_iff.1 hparse
    obtain ⟨p, hp⟩ := d.exists_phrase
    exact ⟨p, hp ▸ hcut⟩
  · intro vars stream f h
    obtain ⟨-, e, hread, rfl⟩ := Formula.compile_eq_ok_iff.1 h
    exact Nat.le_trans (Term.constructors_resolve vars e) (hlarge e hread)

/-- Beside the text, its expression and its end, there are a call and its name, two arguments, a
group, a sign, a name and a number. -/
theorem Expr.ofText_limits_call :
    ∃ p : Phrase .sum, Cut "f(-x, (2))".toList p.tokens ∧ p.textNodes = 11 ∧
      nestingDepth (Text.trim "f(-x, (2))".toList) = 2 ∧
      ∃ e, Expr.ofText "f(-x, (2))" = .ok e ∧ e.constructors ≤ 497 := by
  obtain ⟨hderived, hphrase, hlarge, -⟩ := Expr.ofText_limits "f(-x, (2))"
  have hcounts : (ParseTree.parse "f(-x, (2))".toList).toOption.map (fun tree =>
      (tree.depth, 3 + tree.expr.constructors + tree.expr.calls + tree.expr.argumentCount +
        tree.groups)) = some (2, 11) := by decide +kernel
  cases hparse : ParseTree.parse "f(-x, (2))".toList with
  | error failure =>
    rw [hparse] at hcounts
    cases hcounts
  | ok tree =>
    obtain ⟨p, hcut⟩ := hphrase tree hparse
    obtain ⟨tree', hparse', hdepth, hread, hnodes, -⟩ := hderived p hcut
    obtain rfl := Except.ok.inj (hparse.symm.trans hparse')
    rw [hparse] at hcounts
    obtain ⟨hdepth', hnodes'⟩ := Prod.mk.inj (Option.some.inj hcounts)
    have htwo := hdepth.trans hdepth'
    have heleven := hnodes.trans hnodes'
    rw [hdepth', heleven] at hread
    exact ⟨p, hcut, heleven, htwo, tree.expr, hread, hlarge tree.expr hread⟩

end CurveArt
