import CurveArt.Proofs.Expr.Constituents

/-!
# The grammar without ranks

An expression can also be described without saying how its operators group:

    Text       := Expression End
    Expression := Sign* Primary (Operator Sign* Primary)*
    Primary    := Number | Call | Name | '(' Expression ')'
    Call       := Name '(' [Expression (',' Expression)*] ')'

The size of a text is counted on this grammar: one node for each of its symbols but `Primary`, and
also for the name in a call. A `Phrase` is a tree of these productions.

How its operators group can be found from the right. What stands behind the first sign or the first
operator is a phrase again, and has a derivation with ranks. The sign goes to the first operand of
that derivation; the operator takes its first operand too, or its first term, together with what
stands in front. All else in the derivation stays where it is.

Main results:

* `Phrase.exists_derivation`: the same tokens are derived with ranks, by a tree of the same size.
* `Derivation.exists_phrase`: whatever is derived with ranks is derived without.
-/

namespace CurveArt.Grammar

/-! ## Phrases -/

/-- The productions without ranks. An expression has the category of sums. -/
inductive Phrase : Category → Type where
  | signed (sign : Sign) (rest : Phrase .sum) : Phrase .sum
  | single (operand : Phrase .primary) : Phrase .sum
  | chain (operand : Phrase .primary) (op : BinaryOp) (rest : Phrase .sum) :
    Phrase .sum
  | number (value : Float) : Phrase .primary
  | callEmpty (function : String) : Phrase .primary
  | call (function : String) (arguments : Phrase .arguments) : Phrase .primary
  | name (name : String) : Phrase .primary
  | group (inner : Phrase .sum) : Phrase .primary
  | one (argument : Phrase .sum) : Phrase .arguments
  | more (before : Phrase .arguments) (argument : Phrase .sum) : Phrase .arguments

namespace Phrase

/-- The tokens of a phrase, from left to right. -/
def tokens {c : Category} : Phrase c → List Token
  | signed sign rest => sign.token :: rest.tokens
  | single operand => operand.tokens
  | chain operand op rest => operand.tokens ++ op.token :: rest.tokens
  | number value => [.number value]
  | callEmpty function => [.name function, .leftParen, .rightParen]
  | call function arguments => .name function :: .leftParen :: (arguments.tokens ++ [.rightParen])
  | name word => [.name word]
  | group inner => .leftParen :: (inner.tokens ++ [.rightParen])
  | one argument => argument.tokens
  | more before argument => before.tokens ++ .comma :: argument.tokens

/-- The nodes below an expression, of a primary, and of an argument list. The expression in a group
and each argument is a node of its own. -/
def nodes {c : Category} : Phrase c → Nat
  | signed _ rest => 1 + rest.nodes
  | single operand => operand.nodes
  | chain operand _ rest => 1 + operand.nodes + rest.nodes
  | number _ => 1
  | callEmpty _ => 1 + 1
  | call _ arguments => 1 + 1 + arguments.nodes
  | name _ => 1
  | group inner => 1 + inner.nodes
  | one argument => 1 + argument.nodes
  | more before argument => before.nodes + (1 + argument.nodes)

/-- The nodes of a whole text: the text, its expression with all below it, and the end. -/
def textNodes (p : Phrase .sum) : Nat :=
  1 + (1 + p.nodes) + 1

/-- An operator and an expression behind an expression. -/
def append : Phrase .sum → BinaryOp → Phrase .sum → Phrase .sum
  | signed sign rest, op, last => .signed sign (rest.append op last)
  | single operand, op, last => .chain operand op last
  | chain operand op' rest, op, last => .chain operand op' (rest.append op last)

theorem tokens_append (op : BinaryOp) (last : Phrase .sum) : ∀ p : Phrase .sum,
    (p.append op last).tokens = p.tokens ++ op.token :: last.tokens
  | signed _ rest => by simp [append, tokens, tokens_append op last rest]
  | single _ => by simp [append, tokens]
  | chain _ _ rest => by simp [append, tokens, tokens_append op last rest]

end Phrase

/-! ## What stands first -/

namespace Derivation

theorem exists_firstTerm : ∀ d : Derivation .sum, ∃ (context : Context .sum .sum)
    (term : Derivation .term), context.before = [] ∧ d = context.fill (.ofTerm term)
  | .ofTerm term => ⟨.here, term, rfl, rfl⟩
  | .add left op right => by
    obtain ⟨context, term, hbefore, rfl⟩ := exists_firstTerm left
    exact ⟨.addLeft context op right, term, hbefore, rfl⟩

theorem exists_firstUnary : ∀ d : Derivation .term, ∃ (context : Context .term .term)
    (unary : Derivation .unary), context.before = [] ∧ d = context.fill (.ofUnary unary)
  | .ofUnary unary => ⟨.here, unary, rfl, rfl⟩
  | .multiply left op right => by
    obtain ⟨context, unary, hbefore, rfl⟩ := exists_firstUnary left
    exact ⟨.multiplyLeft context op right, unary, hbefore, rfl⟩

/-- The first operand of a sum is that of its first term. -/
theorem exists_firstOperand : ∀ d : Derivation .sum, ∃ (context : Context .term .sum)
    (unary : Derivation .unary), context.before = [] ∧ d = context.fill (.ofUnary unary)
  | .ofTerm term => by
    obtain ⟨context, unary, hbefore, rfl⟩ := exists_firstUnary term
    exact ⟨.ofTerm context, unary, hbefore, rfl⟩
  | .add left op right => by
    obtain ⟨context, unary, hbefore, rfl⟩ := exists_firstOperand left
    exact ⟨.addLeft context op right, unary, hbefore, rfl⟩

end Derivation

/-- Tokens in front of what stands first in a sum stand in front of the sum. -/
theorem Context.fill_first {hole : Category} {context : Context hole .sum}
    (hbefore : context.before = []) {old new : Derivation hole} {front : List Token} {t : Token}
    {n : Nat} (htokens : new.tokens = front ++ t :: old.tokens)
    (hsize : hole.size new.result = n + hole.size old.result) :
    (context.fill new).tokens = front ++ t :: (context.fill old).tokens ∧
      (context.fill new).tree.size = n + (context.fill old).tree.size := by
  constructor
  · simp [context.tokens_fill, hbefore, htokens]
  · have hfill : (context.fill new).tree.size + hole.size old.result =
        (context.fill old).tree.size + hole.size new.result := context.size_fill new old
    omega

namespace Derivation

/-- A sign in front of a sum goes to its first operand. -/
theorem exists_signed (sign : Sign) (d : Derivation .sum) : ∃ d' : Derivation .sum,
    d'.tokens = sign.token :: d.tokens ∧ d'.tree.size = 1 + d.tree.size := by
  obtain ⟨context, unary, hbefore, rfl⟩ := d.exists_firstOperand
  have htokens : (Derivation.ofUnary (.signed sign unary)).tokens =
      [] ++ sign.token :: (Derivation.ofUnary unary).tokens := rfl
  exact ⟨_, Context.fill_first hbefore htokens rfl⟩

/-- A primary and an operator in front of a sum go to its first term or to its first operand. -/
theorem exists_chained (first : Derivation .primary) (op : BinaryOp) (d : Derivation .sum) :
    ∃ d' : Derivation .sum, d'.tokens = first.tokens ++ op.token :: d.tokens ∧
      d'.tree.size = 1 + first.result.size + d.tree.size := by
  obtain ⟨sums, term, hsum, hterm⟩ := d.exists_firstTerm
  obtain ⟨terms, unary, hterms, hunary⟩ := d.exists_firstOperand
  have hplace : ∃ (hole : Category) (context : Context hole .sum) (old new : Derivation hole),
      context.before = [] ∧ d = context.fill old ∧
        new.tokens = first.tokens ++ op.token :: old.tokens ∧
        hole.size new.result = 1 + first.result.size + hole.size old.result := by
    cases op with
    | plus => exact ⟨_, sums, _, .add (.ofTerm first.asTerm) .plus term, hsum, hterm, rfl, rfl⟩
    | minus => exact ⟨_, sums, _, .add (.ofTerm first.asTerm) .minus term, hsum, hterm, rfl, rfl⟩
    | times =>
      exact ⟨_, terms, _, .multiply first.asTerm .times unary, hterms, hunary, rfl, rfl⟩
    | divide =>
      exact ⟨_, terms, _, .multiply first.asTerm .divide unary, hterms, hunary, rfl, rfl⟩
    | power =>
      -- the exponent is the first operand with all its signs and powers
      exact ⟨_, terms, _, .ofUnary (.ofPower (.raise first unary)), hterms, hunary, rfl, rfl⟩
  obtain ⟨hole, context, old, new, hbefore, rfl, htokens, hsize⟩ := hplace
  exact ⟨context.fill new, Context.fill_first hbefore htokens hsize⟩

end Derivation

/-! ## The same texts -/

/-- A phrase has a derivation with ranks, with the same tokens and as many nodes. -/
theorem Phrase.exists_derivation {c : Category} (p : Phrase c) : ∃ d : Derivation c,
    d.tokens = p.tokens ∧ c.size d.result = p.nodes := by
  -- what stands behind a sign or an operator has its derivation before these come to it
  induction p with
  | signed sign rest ih =>
    obtain ⟨d, htokens, hnodes⟩ := ih
    obtain ⟨d', htokens', hsize⟩ := d.exists_signed sign
    exact ⟨d', by rw [htokens', htokens]; rfl, hsize.trans (congrArg (1 + ·) hnodes)⟩
  | single operand ih =>
    obtain ⟨d, htokens, hnodes⟩ := ih
    exact ⟨.ofTerm d.asTerm, htokens, hnodes⟩
  | chain operand op rest ihf ihr =>
    obtain ⟨first, hfirst, hn⟩ := ihf
    obtain ⟨d, htokens, hnodes⟩ := ihr
    obtain ⟨d', htokens', hsize⟩ := first.exists_chained op d
    refine ⟨d', by rw [htokens', hfirst, htokens]; rfl, ?_⟩
    show d'.tree.size = 1 + operand.nodes + rest.nodes
    rw [hsize, ← hn, ← hnodes]
    rfl
  | number value => exact ⟨.number value, rfl, rfl⟩
  | callEmpty function => exact ⟨.callEmpty function, rfl, rfl⟩
  | call function arguments ih =>
    obtain ⟨d, htokens, hnodes⟩ := ih
    exact ⟨.call function d, by rw [Derivation.tokens, htokens]; rfl,
      congrArg (2 + ·) hnodes⟩
  | name word => exact ⟨.name word, rfl, rfl⟩
  | group inner ih =>
    obtain ⟨d, htokens, hnodes⟩ := ih
    exact ⟨.group d, by rw [Derivation.tokens, htokens]; rfl, congrArg (1 + ·) hnodes⟩
  | one argument ih =>
    obtain ⟨d, htokens, hnodes⟩ := ih
    exact ⟨.one d, htokens, congrArg (1 + · + 0) hnodes⟩
  | more before argument ihb iha =>
    obtain ⟨front, hfront, hn⟩ := ihb
    obtain ⟨d, htokens, hnodes⟩ := iha
    refine ⟨.more front d, by rw [Derivation.tokens, hfront, htokens]; rfl, ?_⟩
    show ParseTree.argumentsSize (front.result ++ [d.result]) = before.nodes + (1 + argument.nodes)
    rw [ParseTree.argumentsSize_append, ← hn, ← hnodes]
    rfl

/-- What a category derives without ranks. -/
@[reducible] def Category.flat : Category → Category
  | .sum | .term | .unary | .power => .sum
  | .primary => .primary
  | .arguments => .arguments

/-- What is derived with ranks is derived without them. -/
theorem Derivation.exists_phrase {c : Category} (d : Derivation c) :
    ∃ p : Phrase c.flat, p.tokens = d.tokens := by
  -- the operands of a sum and of a term are chains themselves, and are put one behind the other
  induction d with
  | ofTerm _ ih | ofUnary _ ih | ofPower _ ih => exact ih
  | ofPrimary _ ih =>
    obtain ⟨p, hp⟩ := ih
    exact ⟨.single p, hp⟩
  | add left op right ihl ihr | multiply left op right ihl ihr =>
    obtain ⟨p, hp⟩ := ihl
    obtain ⟨q, hq⟩ := ihr
    exact ⟨p.append op.op q, by rw [Phrase.tokens_append, hp, hq]; rfl⟩
  | raise base exponent ihb ihe =>
    obtain ⟨p, hp⟩ := ihb
    obtain ⟨q, hq⟩ := ihe
    exact ⟨.chain p .power q, by rw [Phrase.tokens, hp, hq]; rfl⟩
  | signed sign operand ih =>
    obtain ⟨p, hp⟩ := ih
    exact ⟨.signed sign p, congrArg (sign.token :: ·) hp⟩
  | number value => exact ⟨.number value, rfl⟩
  | callEmpty function => exact ⟨.callEmpty function, rfl⟩
  | name word => exact ⟨.name word, rfl⟩
  | call function arguments ih =>
    obtain ⟨p, hp⟩ := ih
    exact ⟨.call function p, by rw [Phrase.tokens, hp]; rfl⟩
  | group inner ih =>
    obtain ⟨p, hp⟩ := ih
    exact ⟨.group p, by rw [Phrase.tokens, hp]; rfl⟩
  | one argument ih =>
    obtain ⟨p, hp⟩ := ih
    exact ⟨.one p, hp⟩
  | more before argument ihb iha =>
    obtain ⟨p, hp⟩ := ihb
    obtain ⟨q, hq⟩ := iha
    exact ⟨.more p q, by rw [Phrase.tokens, hp, hq]; rfl⟩

end CurveArt.Grammar
