import CurveArt.Expr.Parser
import CurveArt.Proofs.Expr.Spelling

/-!
# The grammar of expressions

The stratified grammar that the operators' ranks stand for, over tokens:

    Sum       := Term | Sum ('+' | '-') Term
    Term      := Unary | Term ('*' | '/') Unary
    Unary     := ('+' | '-') Unary | Power
    Power     := Primary | Primary '**' Unary
    Primary   := Number | Name '(' [Arguments] ')' | Name | '(' Sum ')'
    Arguments := Sum | Arguments ',' Sum

Sums, terms and argument lists are written from the left, so a chain of sums or products groups to
the left, while the exponent of a power is again a unary expression, so powers group to the right
and hold tighter than a sign in front of them. A `Derivation` is a tree of productions; `tokens` is
the text it derives and `result` the parse tree it stands for. Nothing here knows the parser: no
rank, no stack.

Main results:

* `Derivation.result_injective`: a derivation can be read off its parse tree.
* `Derivation.tokens_readable`: every derived token is one that a text can spell.
-/

namespace CurveArt

/-! ## Tokens of operators -/

def BinaryOp.token : BinaryOp → Token
  | .plus => .plus
  | .minus => .minus
  | .times => .times
  | .divide => .divide
  | .power => .power

def Sign.token : Sign → Token
  | .plus => .plus
  | .minus => .minus

/-! ## Lists of parse trees -/

namespace ParseTree

theorem exprs_append (trees trees' : List ParseTree) :
    exprs (trees ++ trees') = exprs trees ++ exprs trees' := by
  induction trees with
  | nil => rfl
  | cons tree rest ih => exact congrArg (tree.expr :: ·) ih

theorem argumentsSize_append (trees trees' : List ParseTree) :
    argumentsSize (trees ++ trees') = argumentsSize trees + argumentsSize trees' := by
  induction trees with
  | nil => simp [argumentsSize]
  | cons tree rest ih => simp [argumentsSize, ih, Nat.add_assoc]

theorem argumentsDepth_append (trees trees' : List ParseTree) :
    argumentsDepth (trees ++ trees') = max (argumentsDepth trees) (argumentsDepth trees') := by
  induction trees with
  | nil => simp [argumentsDepth]
  | cons tree rest ih => simp [argumentsDepth, ih, Nat.max_assoc]

end ParseTree

namespace Grammar

/-- The operators between the terms of a sum. -/
inductive AddOp where
  | plus
  | minus
  deriving Repr, DecidableEq

def AddOp.op : AddOp → BinaryOp
  | .plus => .plus
  | .minus => .minus

/-- The operators between the factors of a term. -/
inductive MulOp where
  | times
  | divide
  deriving Repr, DecidableEq

def MulOp.op : MulOp → BinaryOp
  | .times => .times
  | .divide => .divide

/-! ## Derivations -/

inductive Category where
  | sum
  | term
  | unary
  | power
  | primary
  | arguments
  deriving Repr, DecidableEq

/-- What a category stands for: a list of parse trees for argument lists, one parse tree for all
others. -/
@[reducible] def Category.Result : Category → Type
  | .arguments => List ParseTree
  | _ => ParseTree

/-- A measure of trees, with the one of lists that belongs to it, on what a category stands for. -/
def Category.measure (tree : ParseTree → Nat) (trees : List ParseTree → Nat) :
    (c : Category) → c.Result → Nat
  | .arguments, result => trees result
  | .sum, result | .term, result | .unary, result | .power, result | .primary, result => tree result

/-- The productions of the grammar. -/
inductive Derivation : Category → Type where
  | ofTerm (term : Derivation .term) : Derivation .sum
  | add (left : Derivation .sum) (op : AddOp) (right : Derivation .term) : Derivation .sum
  | ofUnary (unary : Derivation .unary) : Derivation .term
  | multiply (left : Derivation .term) (op : MulOp) (right : Derivation .unary) : Derivation .term
  | signed (sign : Sign) (operand : Derivation .unary) : Derivation .unary
  | ofPower (power : Derivation .power) : Derivation .unary
  | ofPrimary (primary : Derivation .primary) : Derivation .power
  | raise (base : Derivation .primary) (exponent : Derivation .unary) : Derivation .power
  | number (value : Float) : Derivation .primary
  | callEmpty (function : String) : Derivation .primary
  | call (function : String) (arguments : Derivation .arguments) : Derivation .primary
  | name (name : String) : Derivation .primary
  | group (inner : Derivation .sum) : Derivation .primary
  | one (argument : Derivation .sum) : Derivation .arguments
  | more (before : Derivation .arguments) (argument : Derivation .sum) : Derivation .arguments

namespace Derivation

/-- The tokens that a derivation derives, from left to right. -/
def tokens {c : Category} : Derivation c → List Token
  | ofTerm term => term.tokens
  | add left op right => left.tokens ++ op.op.token :: right.tokens
  | ofUnary unary => unary.tokens
  | multiply left op right => left.tokens ++ op.op.token :: right.tokens
  | signed sign operand => sign.token :: operand.tokens
  | ofPower power => power.tokens
  | ofPrimary primary => primary.tokens
  | raise base exponent => base.tokens ++ .power :: exponent.tokens
  | number value => [.number value]
  | callEmpty function => [.name function, .leftParen, .rightParen]
  | call function arguments => .name function :: .leftParen :: (arguments.tokens ++ [.rightParen])
  | name word => [.name word]
  | group inner => .leftParen :: (inner.tokens ++ [.rightParen])
  | one argument => argument.tokens
  | more before argument => before.tokens ++ .comma :: argument.tokens

/-- The parse tree of a derivation, or the parse trees of an argument list. -/
def result {c : Category} : Derivation c → c.Result
  | ofTerm term => term.result
  | add left op right => .binary op.op left.result right.result
  | ofUnary unary => unary.result
  | multiply left op right => .binary op.op left.result right.result
  | signed sign operand => .signed sign operand.result
  | ofPower power => power.result
  | ofPrimary primary => primary.result
  | raise base exponent => .binary .power base.result exponent.result
  | number value => .number value
  | callEmpty function => .call function []
  | call function arguments => .call function arguments.result
  | name word => .name word
  | group inner => .group inner.result
  | one argument => [argument.result]
  | more before argument => before.result ++ [argument.result]

/-- The parse tree of a whole text. -/
def tree (d : Derivation .sum) : ParseTree :=
  d.result

/-- The expression that a whole text denotes. -/
def expr (d : Derivation .sum) : Expr :=
  d.tree.expr

/-! ## Reading a derivation off its tree -/

/-- How tightly the outermost operator of a tree holds: a tree of rank `r` is derived by the
categories down to the one of that rank. -/
def outerRank : ParseTree → Nat
  | .binary .plus _ _ | .binary .minus _ _ => 0
  | .binary .times _ _ | .binary .divide _ _ => 1
  | .signed _ _ => 2
  | .binary .power _ _ => 3
  | _ => 4

theorem outerRank_primary (d : Derivation .primary) : outerRank d.result = 4 := by
  cases d <;> rfl

theorem outerRank_power (d : Derivation .power) : 3 ≤ outerRank d.result := by
  cases d with
  | ofPrimary primary =>
    have h : outerRank primary.result = 4 := outerRank_primary primary
    show 3 ≤ outerRank primary.result
    omega
  | raise base exponent => exact Nat.le_refl 3

theorem outerRank_unary (d : Derivation .unary) : 2 ≤ outerRank d.result := by
  cases d with
  | signed sign operand => exact Nat.le_refl 2
  | ofPower power =>
    have h : 3 ≤ outerRank power.result := outerRank_power power
    show 2 ≤ outerRank power.result
    omega

theorem outerRank_term (d : Derivation .term) : 1 ≤ outerRank d.result := by
  cases d with
  | ofUnary unary =>
    have h : 2 ≤ outerRank unary.result := outerRank_unary unary
    show 1 ≤ outerRank unary.result
    omega
  | multiply left op right => cases op <;> exact Nat.le_refl 1

/-! What the tighter production of a category derives, the looser one cannot. -/

theorem term_ne_add (d : Derivation .term) (op : AddOp) (left right : ParseTree) :
    d.result ≠ .binary op.op left right := by
  intro h
  have hrank := outerRank_term d
  rw [h] at hrank
  cases op <;> simp [AddOp.op, outerRank] at hrank

theorem unary_ne_multiply (d : Derivation .unary) (op : MulOp) (left right : ParseTree) :
    d.result ≠ .binary op.op left right := by
  intro h
  have hrank := outerRank_unary d
  rw [h] at hrank
  cases op <;> simp [MulOp.op, outerRank] at hrank

theorem power_ne_signed (d : Derivation .power) (sign : Sign) (operand : ParseTree) :
    d.result ≠ .signed sign operand := by
  intro h
  have hrank := outerRank_power d
  rw [h] at hrank
  simp [outerRank] at hrank

theorem primary_ne_raise (d : Derivation .primary) (base exponent : ParseTree) :
    d.result ≠ .binary .power base exponent := by
  intro h
  have hrank := outerRank_primary d
  rw [h] at hrank
  simp [outerRank] at hrank

theorem result_ne_nil (d : Derivation .arguments) : d.result ≠ [] := by
  cases d with
  | one argument => exact List.cons_ne_nil _ _
  | more before argument => exact List.append_ne_nil_of_right_ne_nil _ (List.cons_ne_nil _ _)

theorem addOp_injective {op op' : AddOp} (h : op.op = op'.op) : op = op' := by
  cases op <;> cases op' <;> first | rfl | cases h

theorem mulOp_injective {op op' : MulOp} (h : op.op = op'.op) : op = op' := by
  cases op <;> cases op' <;> first | rfl | cases h

theorem one_ne_more (argument : Derivation .sum) (before : Derivation .arguments)
    (last : Derivation .sum) : (one argument).result ≠ (more before last).result := by
  intro h
  have hlen := congrArg List.length
    (show [argument.result] = before.result ++ [last.result] from h)
  have hpos := List.length_pos_iff.2 (result_ne_nil before)
  simp only [List.length_append, List.length_singleton] at hlen
  omega

/-- A derivation can be read off its parse tree: the outermost operator of the tree says which
production comes last. -/
theorem result_injective {c : Category} (d d' : Derivation c) (h : d.result = d'.result) :
    d = d' := by
  -- two productions of a category are the same, and then so are their parts, or they give trees of
  -- different rank
  induction d with
  | ofTerm term ih =>
    cases d' with
    | ofTerm term' => rw [ih term' h]
    | add left op right => exact absurd h (term_ne_add term op _ _)
  | add left op right ihl ihr =>
    cases d' with
    | ofTerm term => exact absurd h.symm (term_ne_add term op _ _)
    | add left' op' right' =>
      obtain ⟨hop, hl, hr⟩ := ParseTree.binary.inj h
      rw [addOp_injective hop, ihl left' hl, ihr right' hr]
  | ofUnary unary ih =>
    cases d' with
    | ofUnary unary' => rw [ih unary' h]
    | multiply left op right => exact absurd h (unary_ne_multiply unary op _ _)
  | multiply left op right ihl ihr =>
    cases d' with
    | ofUnary unary => exact absurd h.symm (unary_ne_multiply unary op _ _)
    | multiply left' op' right' =>
      obtain ⟨hop, hl, hr⟩ := ParseTree.binary.inj h
      rw [mulOp_injective hop, ihl left' hl, ihr right' hr]
  | signed sign operand ih =>
    cases d' with
    | signed sign' operand' =>
      obtain ⟨rfl, ho⟩ := ParseTree.signed.inj h
      rw [ih operand' ho]
    | ofPower power => exact absurd h.symm (power_ne_signed power sign _)
  | ofPower power ih =>
    cases d' with
    | signed sign operand => exact absurd h (power_ne_signed power sign _)
    | ofPower power' => rw [ih power' h]
  | ofPrimary primary ih =>
    cases d' with
    | ofPrimary primary' => rw [ih primary' h]
    | raise base exponent => exact absurd h (primary_ne_raise primary _ _)
  | raise base exponent ihb ihe =>
    cases d' with
    | ofPrimary primary => exact absurd h.symm (primary_ne_raise primary _ _)
    | raise base' exponent' =>
      obtain ⟨-, hb, he⟩ := ParseTree.binary.inj h
      rw [ihb base' hb, ihe exponent' he]
  | number value =>
    cases d' with
    | number value' => rw [ParseTree.number.inj h]
    | _ => cases h
  | callEmpty function =>
    cases d' with
    | callEmpty function' => rw [(ParseTree.call.inj h).1]
    | call function' arguments =>
      exact absurd (ParseTree.call.inj h).2.symm (result_ne_nil arguments)
    | _ => cases h
  | call function arguments ih =>
    -- an argument list that is derived has at least one argument
    cases d' with
    | callEmpty function' => exact absurd (ParseTree.call.inj h).2 (result_ne_nil arguments)
    | call function' arguments' =>
      obtain ⟨rfl, ha⟩ := ParseTree.call.inj h
      rw [ih arguments' ha]
    | _ => cases h
  | name word =>
    cases d' with
    | name word' => rw [ParseTree.name.inj h]
    | _ => cases h
  | group inner ih =>
    cases d' with
    | group inner' => rw [ih inner' (ParseTree.group.inj h)]
    | _ => cases h
  | one argument ih =>
    -- argument lists give lists of trees, which differ in length
    cases d' with
    | one argument' => rw [ih argument' (List.singleton_inj.1 h)]
    | more before argument' => exact absurd h (one_ne_more argument before argument')
  | more before argument ihb iha =>
    cases d' with
    | one argument' => exact absurd h.symm (one_ne_more argument' before argument)
    | more before' argument' =>
      obtain ⟨hb, ha⟩ := List.append_inj' (show before.result ++ [argument.result] =
        before'.result ++ [argument'.result] from h) rfl
      rw [ihb before' hb, iha argument' (List.singleton_inj.1 ha)]

/-! ## Derived tokens -/

theorem isReadable_binary (op : BinaryOp) : op.token.IsReadable := by
  cases op <;> trivial

theorem isReadable_sign (sign : Sign) : sign.token.IsReadable := by
  cases sign <;> trivial

/-- An operator or a comma between two sequences is one more token. -/
theorem readable_between {ls rs : List Token} {t : Token} (hl : ∀ u ∈ ls, u.IsReadable)
    (ht : t.IsReadable) (hr : ∀ u ∈ rs, u.IsReadable) : ∀ u ∈ ls ++ t :: rs, u.IsReadable := by
  intro u hu
  rcases List.mem_append.1 hu with hu | hu
  · exact hl u hu
  · rcases List.mem_cons.1 hu with rfl | hu
    · exact ht
    · exact hr u hu

/-- The grammar has a place for every token but those that mean nothing. -/
theorem tokens_readable {c : Category} (d : Derivation c) : ∀ t ∈ d.tokens, t.IsReadable := by
  induction d with
  | ofTerm _ ih | ofUnary _ ih | ofPower _ ih | ofPrimary _ ih | one _ ih => exact ih
  | add _ op _ ihl ihr | multiply _ op _ ihl ihr =>
    exact readable_between ihl (isReadable_binary op.op) ihr
  | signed sign _ ih => exact List.forall_mem_cons.2 ⟨isReadable_sign sign, ih⟩
  | raise _ _ ihb ihe | more _ _ ihb ihe => exact readable_between ihb trivial ihe
  | number _ | name _ =>
    intro t ht
    rw [List.mem_singleton.1 ht]
    trivial
  | callEmpty _ => simp [tokens, Token.IsReadable]
  | call _ _ ih | group _ ih =>
    simp only [tokens, List.mem_cons, List.mem_append, List.not_mem_nil, or_false]
    grind [Token.IsReadable]

end Derivation

end Grammar

end CurveArt
