import CurveArt.Proofs.Expr.Depth

/-!
# The constituents of an expression

A derivation with a place in it left open is a context. What is put in its place adds its tokens
between those of the context, and adds its own to the meaning of the whole; so one constituent can
be replaced by another that stands for the same expression. Parentheses around a constituent are
such a replacement: a group is a primary, and every category but argument lists derives primaries.

Main results:

* `Context.tokens_fill`, `Context.alike_fill`, `Context.size_fill`: the tokens, the expression and
  the size of a filled context.
* `Derivation.exists_enclosed`: a constituent with parentheses around it is one of its category.
* `Derivation.exists_fill_enclosed`: what parentheses around a constituent do to the whole.
-/

namespace CurveArt.Grammar

open Spelling

/-! ## Categories -/

/-- Both stand for the same expressions. -/
def Category.Alike : (c : Category) → c.Result → c.Result → Prop
  | .arguments, trees, trees' => ParseTree.exprs trees = ParseTree.exprs trees'
  | .sum, tree, tree' | .term, tree, tree' | .unary, tree, tree' | .power, tree, tree'
  | .primary, tree, tree' => tree.expr = tree'.expr

/-- The size of the tree of a category, or of an argument list. -/
def Category.size : (c : Category) → c.Result → Nat :=
  Category.measure ParseTree.size ParseTree.argumentsSize

/-! ## Contexts -/

/-- A derivation that leaves one place open, for a derivation of the category `hole`. -/
inductive Context (hole : Category) : Category → Type where
  | here : Context hole hole
  | ofTerm (term : Context hole .term) : Context hole .sum
  | addLeft (left : Context hole .sum) (op : AddOp) (right : Derivation .term) : Context hole .sum
  | addRight (left : Derivation .sum) (op : AddOp) (right : Context hole .term) : Context hole .sum
  | ofUnary (unary : Context hole .unary) : Context hole .term
  | multiplyLeft (left : Context hole .term) (op : MulOp) (right : Derivation .unary) :
    Context hole .term
  | multiplyRight (left : Derivation .term) (op : MulOp) (right : Context hole .unary) :
    Context hole .term
  | signed (sign : Sign) (operand : Context hole .unary) : Context hole .unary
  | ofPower (power : Context hole .power) : Context hole .unary
  | ofPrimary (primary : Context hole .primary) : Context hole .power
  | raiseBase (base : Context hole .primary) (exponent : Derivation .unary) : Context hole .power
  | raiseExponent (base : Derivation .primary) (exponent : Context hole .unary) :
    Context hole .power
  | call (function : String) (arguments : Context hole .arguments) : Context hole .primary
  | group (inner : Context hole .sum) : Context hole .primary
  | one (argument : Context hole .sum) : Context hole .arguments
  | moreBefore (before : Context hole .arguments) (argument : Derivation .sum) :
    Context hole .arguments
  | moreLast (before : Derivation .arguments) (argument : Context hole .sum) :
    Context hole .arguments

namespace Context

variable {hole c : Category}

/-- The derivation with `d` in the open place. -/
def fill {c : Category} : Context hole c → Derivation hole → Derivation c
  | here, d => d
  | ofTerm term, d => .ofTerm (term.fill d)
  | addLeft left op right, d => .add (left.fill d) op right
  | addRight left op right, d => .add left op (right.fill d)
  | ofUnary unary, d => .ofUnary (unary.fill d)
  | multiplyLeft left op right, d => .multiply (left.fill d) op right
  | multiplyRight left op right, d => .multiply left op (right.fill d)
  | signed sign operand, d => .signed sign (operand.fill d)
  | ofPower power, d => .ofPower (power.fill d)
  | ofPrimary primary, d => .ofPrimary (primary.fill d)
  | raiseBase base exponent, d => .raise (base.fill d) exponent
  | raiseExponent base exponent, d => .raise base (exponent.fill d)
  | call function arguments, d => .call function (arguments.fill d)
  | group inner, d => .group (inner.fill d)
  | one argument, d => .one (argument.fill d)
  | moreBefore before argument, d => .more (before.fill d) argument
  | moreLast before argument, d => .more before (argument.fill d)

/-- The tokens in front of the open place. -/
def before {c : Category} : Context hole c → List Token
  | here => []
  | ofTerm inner => inner.before
  | addLeft left _ _ => left.before
  | addRight left op right => left.tokens ++ op.op.token :: right.before
  | ofUnary inner => inner.before
  | multiplyLeft left _ _ => left.before
  | multiplyRight left op right => left.tokens ++ op.op.token :: right.before
  | signed sign operand => sign.token :: operand.before
  | ofPower inner => inner.before
  | ofPrimary inner => inner.before
  | raiseBase base _ => base.before
  | raiseExponent base exponent => base.tokens ++ .power :: exponent.before
  | call function arguments => .name function :: .leftParen :: arguments.before
  | group inner => .leftParen :: inner.before
  | one argument => argument.before
  | moreBefore before _ => before.before
  | moreLast before argument => before.tokens ++ .comma :: argument.before

/-- The tokens behind the open place. -/
def after {c : Category} : Context hole c → List Token
  | here => []
  | ofTerm inner => inner.after
  | addLeft left op right => left.after ++ op.op.token :: right.tokens
  | addRight _ _ right => right.after
  | ofUnary inner => inner.after
  | multiplyLeft left op right => left.after ++ op.op.token :: right.tokens
  | multiplyRight _ _ right => right.after
  | signed _ operand => operand.after
  | ofPower inner => inner.after
  | ofPrimary inner => inner.after
  | raiseBase base exponent => base.after ++ .power :: exponent.tokens
  | raiseExponent _ exponent => exponent.after
  | call _ arguments => arguments.after ++ [.rightParen]
  | group inner => inner.after ++ [.rightParen]
  | one argument => argument.after
  | moreBefore before argument => before.after ++ .comma :: argument.tokens
  | moreLast _ argument => argument.after

/-- What fills a context stands between its tokens. -/
theorem tokens_fill (context : Context hole c) (d : Derivation hole) :
    (context.fill d).tokens = context.before ++ (d.tokens ++ context.after) := by
  -- outwards from the open place: every production puts its own tokens on one side or on both
  induction context with
  | here => exact (List.append_nil d.tokens).symm
  | ofTerm _ ih | ofUnary _ ih | ofPower _ ih | ofPrimary _ ih | one _ ih => exact ih
  | addLeft _ _ _ ih | multiplyLeft _ _ _ ih | raiseBase _ _ ih | moreBefore _ _ ih
  | addRight _ _ _ ih | multiplyRight _ _ _ ih | raiseExponent _ _ ih | moreLast _ _ ih
  | signed _ _ ih | call _ _ ih | group _ ih =>
    simp [fill, before, after, Derivation.tokens, ih]

/-- The meaning of a filled context is that of what fills it, within the same surroundings. -/
theorem alike_fill (context : Context hole c) {d d' : Derivation hole}
    (h : hole.Alike d.result d'.result) :
    c.Alike (context.fill d).result (context.fill d').result := by
  -- a production's expression depends on those of its parts only, and a group has that of its part
  induction context with
  | here => exact h
  | ofTerm _ ih | ofUnary _ ih | ofPower _ ih | ofPrimary _ ih | group _ ih => exact ih
  | addLeft _ op right ih => exact congrArg (Expr.binary op.op · right.result.expr) ih
  | multiplyLeft _ op right ih => exact congrArg (Expr.binary op.op · right.result.expr) ih
  | addRight left op _ ih => exact congrArg (Expr.binary op.op left.result.expr) ih
  | multiplyRight left op _ ih => exact congrArg (Expr.binary op.op left.result.expr) ih
  | raiseBase _ exponent ih => exact congrArg (Expr.binary .power · exponent.result.expr) ih
  | raiseExponent base _ ih => exact congrArg (Expr.binary .power base.result.expr) ih
  | signed sign _ ih => exact congrArg (Expr.signed sign) ih
  | call function _ ih => exact congrArg (Expr.call function) ih
  | one _ ih => exact congrArg (fun e => [e]) ih
  | moreBefore inner argument ih =>
    -- an argument list is longer by one at its end, wherever the open place is
    show ParseTree.exprs ((inner.fill d).result ++ [argument.result]) =
      ParseTree.exprs ((inner.fill d').result ++ [argument.result])
    rw [ParseTree.exprs_append, ParseTree.exprs_append,
      show ParseTree.exprs (inner.fill d).result = ParseTree.exprs (inner.fill d').result from ih]
  | moreLast front argument ih =>
    show ParseTree.exprs (front.result ++ [(argument.fill d).result]) =
      ParseTree.exprs (front.result ++ [(argument.fill d').result])
    rw [ParseTree.exprs_append, ParseTree.exprs_append]
    exact congrArg (fun e => ParseTree.exprs front.result ++ [e]) ih

/-- A context adds the same to the size of whatever fills it. -/
theorem size_fill (context : Context hole c) (d d' : Derivation hole) :
    c.size (context.fill d).result + hole.size d'.result =
      c.size (context.fill d').result + hole.size d.result := by
  induction context with
  | here => exact Nat.add_comm _ _
  | ofTerm _ ih | ofUnary _ ih | ofPower _ ih | ofPrimary _ ih => exact ih
  | addLeft _ _ _ ih | multiplyLeft _ _ _ ih | raiseBase _ _ ih
  | addRight _ _ _ ih | multiplyRight _ _ _ ih | raiseExponent _ _ ih
  | signed _ _ ih | call _ _ ih | group _ ih | one _ ih =>
    simp only [fill, Derivation.result, Category.size, Category.measure,
      ParseTree.size, ParseTree.argumentsSize] at ih ⊢
    omega
  | moreBefore _ _ ih | moreLast _ _ ih =>
    simp only [fill, Derivation.result, Category.size, Category.measure,
      ParseTree.argumentsSize_append, ParseTree.argumentsSize] at ih ⊢
    omega

end Context

namespace Derivation

/-! ## Parentheses around a constituent -/

/-- A primary that is a term by itself. -/
def asTerm (primary : Derivation .primary) : Derivation .term :=
  .ofUnary (.ofPower (.ofPrimary primary))

/-- A constituent with parentheses around it is one of the same category, and stands for the same
expression. -/
theorem exists_enclosed {c : Category} (hc : c ≠ .arguments) (d : Derivation c) :
    ∃ d' : Derivation c, d'.tokens = .leftParen :: (d.tokens ++ [.rightParen]) ∧
      c.Alike d.result d'.result ∧ c.size d'.result = 1 + c.size d.result := by
  cases c with
  | arguments => exact absurd rfl hc
  | sum => exact ⟨.ofTerm (asTerm (.group d)), rfl, rfl, rfl⟩
  | term => exact ⟨asTerm (.group (.ofTerm d)), rfl, rfl, rfl⟩
  | unary => exact ⟨.ofPower (.ofPrimary (.group (.ofTerm (.ofUnary d)))), rfl, rfl, rfl⟩
  | power => exact ⟨.ofPrimary (.group (.ofTerm (.ofUnary (.ofPower d)))), rfl, rfl, rfl⟩
  | primary => exact ⟨.group (.ofTerm (asTerm d)), rfl, rfl, rfl⟩

/-- Parentheses around a constituent change neither the expression nor, but for one node, the size
of the whole. -/
theorem exists_fill_enclosed {c : Category} (hc : c ≠ .arguments) (context : Context c .sum)
    (d : Derivation c) :
    ∃ d' : Derivation .sum,
      d'.tokens =
        context.before ++ .leftParen :: (d.tokens ++ .rightParen :: context.after) ∧
      d'.expr = (context.fill d).expr ∧ d'.tree.nodes = (context.fill d).tree.nodes + 1 := by
  obtain ⟨enclosed, htokens, halike, hsize⟩ := exists_enclosed hc d
  refine ⟨context.fill enclosed, ?_, (context.alike_fill halike).symm, ?_⟩
  · -- the two tokens more are next to those of the constituent
    rw [context.tokens_fill, htokens]
    simp
  · have hfill := context.size_fill d enclosed
    show (context.fill enclosed).tree.size + 3 = (context.fill d).tree.size + 3 + 1
    have hsum : (context.fill d).tree.size + c.size enclosed.result =
        (context.fill enclosed).tree.size + c.size d.result := hfill
    omega

end Derivation

end CurveArt.Grammar
