import CurveArt.Proofs.Expr.Printed

/-!
# Reading a printed expression again

The text of an expression has parentheses around every binary operation, but none around a sign. In
front of an operand of a sum or a product, or of an argument, the sign is read back where it was. In
front of the base of a power it is not: a power holds tighter than a sign, so the sign is read as
that of the power. The other expressions that change are numbers beyond all doubles, which are
printed as the name `inf`.

`Expr.reread` says what is read in every case, and `Faithful` for which expressions that is the one
that was printed. `Derivation.ofExpr` is the derivation of the printed text: it follows the
recursion of `reread`, and at every place takes the production that the parentheses leave.

Main results:

* `Expr.reread_eq_iff`: the expressions that come back are the faithful ones.
* `Derivation.tokens_ofExpr`, `Derivation.expr_ofExpr`: the tokens of a printed expression are
  derived, and stand for the expression that is read.
-/

namespace CurveArt

namespace Expr

/-! ## What is read -/

/-- The signs in front of an expression. -/
def signs : Expr → List Sign
  | .signed sign operand => sign :: operand.signs
  | _ => []

def withSigns (signs : List Sign) (e : Expr) : Expr :=
  signs.foldr .signed e

/-- A printed operation as it is read, for operands that are read with signs in front of them. The
signs of a base become those of the power. -/
def rereadOperation (op : BinaryOp) (leftSigns : List Sign) (left : Expr) (rightSigns : List Sign)
    (right : Expr) : Expr :=
  match op with
  | .power => withSigns leftSigns (.binary .power left (withSigns rightSigns right))
  | op => .binary op (withSigns leftSigns left) (withSigns rightSigns right)

mutual

/-- What is read from the text of an expression behind the signs in front of it. -/
def rereadBare : Expr → Expr
  | .number value => if value.isFinite then .number value else .name "inf"
  | .name word => .name word
  | .call function arguments => .call function (rereadAll arguments)
  | .signed _ operand => operand.rereadBare
  | .binary op left right =>
    rereadOperation op left.signs left.rereadBare right.signs right.rereadBare

def rereadAll : List Expr → List Expr
  | [] => []
  | e :: rest => withSigns e.signs e.rereadBare :: rereadAll rest

end

/-- What is read from the text of an expression. -/
def reread (e : Expr) : Expr :=
  withSigns e.signs e.rereadBare

theorem reread_signed (sign : Sign) (operand : Expr) :
    (Expr.signed sign operand).reread = .signed sign operand.reread :=
  rfl

/-! ## What comes back -/

/-- One place of an expression comes back: a number has a numeral, and a base has no sign. -/
def ComesBack : Expr → Prop
  | .number value => value.isFinite = true
  | .binary .power base _ => base.signs = []
  | _ => True

/-- Every place of the expression comes back. -/
def Faithful (e : Expr) : Prop :=
  ∀ part, Occurs part e → part.ComesBack

theorem faithful_iff {e : Expr} :
    e.Faithful ↔ e.ComesBack ∧ ∀ operand ∈ e.operands, operand.Faithful :=
  forall_occurs_iff

theorem withSigns_ne_binary {sign : Sign} {signs : List Sign} {e left right : Expr}
    {op : BinaryOp} : withSigns (sign :: signs) e ≠ .binary op left right :=
  nofun

/-- Only a power reads the signs of an operand as its own. -/
theorem reread_binary_eq_iff {op : BinaryOp} {left right : Expr} :
    (Expr.binary op left right).reread = .binary op left right ↔
      (Expr.binary op left right).ComesBack ∧ left.reread = left ∧ right.reread = right := by
  show rereadOperation op left.signs left.rereadBare right.signs right.rereadBare = _ ↔ _
  cases op with
  | power =>
    -- signs in front of the base would make the result an expression with a sign
    show withSigns left.signs (.binary .power left.rereadBare right.reread) = _ ↔
      left.signs = [] ∧ _
    cases hsigns : left.signs with
    | nil =>
      -- without signs the base is read as it stands
      have hleft : left.reread = left.rereadBare := by
        rw [reread, hsigns, withSigns, List.foldr_nil]
      rw [hleft, withSigns, List.foldr_nil, Expr.binary.injEq]
      simp
    | cons sign rest =>
      constructor
      · intro h
        exact absurd h withSigns_ne_binary
      · rintro ⟨hnil, -⟩
        cases hnil
  | plus | minus | times | divide =>
    show Expr.binary _ left.reread right.reread = _ ↔ True ∧ _
    rw [Expr.binary.injEq]
    simp

mutual

/-- **The expressions that come back.** -/
theorem reread_eq_iff (e : Expr) : e.reread = e ↔ e.Faithful := by
  rw [faithful_iff]
  match e with
  | .number value =>
    show (if value.isFinite then Expr.number value else .name "inf") = _ ↔ value.isFinite = true ∧ _
    cases value.isFinite <;> simp [operands]
  | .name word => simp [reread, signs, withSigns, rereadBare, ComesBack, operands]
  | .call function arguments =>
    have harguments := rereadAll_eq_iff arguments
    show Expr.call function (rereadAll arguments) = _ ↔ True ∧ ∀ e ∈ arguments, e.Faithful
    rw [Expr.call.injEq, harguments]
    simp
  | .signed sign operand =>
    have hoperand := reread_eq_iff operand
    rw [reread_signed, Expr.signed.injEq, hoperand]
    simp [ComesBack, operands]
  | .binary op left right =>
    have hleft := reread_eq_iff left
    have hright := reread_eq_iff right
    rw [reread_binary_eq_iff, hleft, hright]
    simp [operands]

theorem rereadAll_eq_iff (es : List Expr) : rereadAll es = es ↔ ∀ e ∈ es, e.Faithful := by
  match es with
  | [] => simp [rereadAll]
  | e :: rest =>
    have he := reread_eq_iff e
    have hrest := rereadAll_eq_iff rest
    show e.reread :: rereadAll rest = _ ↔ _
    rw [List.cons.injEq, he, hrest, List.forall_mem_cons]

end

end Expr

/-! ## The derivation of a printed expression -/

namespace Grammar.Derivation

/-- Signs in front of a power. -/
def withSigns (signs : List Sign) (power : Derivation .power) : Derivation .unary :=
  signs.foldr .signed (.ofPower power)

/-- Signs in front of a primary. -/
def ofPrinted (signs : List Sign) (bare : Derivation .primary) : Derivation .unary :=
  withSigns signs (.ofPrimary bare)

/-- A printed operation inside its parentheses. -/
def ofOperation (op : BinaryOp) (leftSigns : List Sign) (left : Derivation .primary)
    (rightSigns : List Sign) (right : Derivation .primary) : Derivation .sum :=
  match op with
  | .plus =>
    .add (.ofTerm (.ofUnary (ofPrinted leftSigns left))) .plus
      (.ofUnary (ofPrinted rightSigns right))
  | .minus =>
    .add (.ofTerm (.ofUnary (ofPrinted leftSigns left))) .minus
      (.ofUnary (ofPrinted rightSigns right))
  | .times =>
    .ofTerm (.multiply (.ofUnary (ofPrinted leftSigns left)) .times (ofPrinted rightSigns right))
  | .divide =>
    .ofTerm (.multiply (.ofUnary (ofPrinted leftSigns left)) .divide (ofPrinted rightSigns right))
  | .power =>
    .ofTerm (.ofUnary (withSigns leftSigns (.raise left (ofPrinted rightSigns right))))

mutual

/-- What stands in the text of an expression behind the signs in front of it. -/
def ofBare : Expr → Derivation .primary
  | .number value => if value.isFinite then .number value else .name "inf"
  | .name word => .name word
  | .call function [] => .callEmpty function
  | .call function (argument :: rest) =>
    .call function
      (ofArguments (.one (.ofTerm (.ofUnary (ofPrinted argument.signs (ofBare argument))))) rest)
  | .signed _ operand => ofBare operand
  | .binary op left right =>
    .group (ofOperation op left.signs (ofBare left) right.signs (ofBare right))

/-- The arguments that follow after others. -/
def ofArguments (before : Derivation .arguments) : List Expr → Derivation .arguments
  | [] => before
  | e :: rest =>
    ofArguments (.more before (.ofTerm (.ofUnary (ofPrinted e.signs (ofBare e))))) rest

end

/-- The text of an expression. -/
def ofExpr (e : Expr) : Derivation .sum :=
  .ofTerm (.ofUnary (ofPrinted e.signs (ofBare e)))

theorem tokens_withSigns (signs : List Sign) (power : Derivation .power) :
    (withSigns signs power).tokens = signs.map Sign.token ++ power.tokens := by
  induction signs with
  | nil => rfl
  | cons sign rest ih => exact congrArg (sign.token :: ·) ih

theorem expr_withSigns (signs : List Sign) (power : Derivation .power) :
    ParseTree.expr (withSigns signs power).result =
      Expr.withSigns signs (ParseTree.expr power.result) := by
  induction signs with
  | nil => rfl
  | cons sign rest ih => exact congrArg (Expr.signed sign) ih

theorem tokens_ofOperation (op : BinaryOp) (leftSigns : List Sign) (left : Derivation .primary)
    (rightSigns : List Sign) (right : Derivation .primary) :
    (ofOperation op leftSigns left rightSigns right).tokens =
      leftSigns.map Sign.token ++ left.tokens ++
        op.token :: (rightSigns.map Sign.token ++ right.tokens) := by
  cases op <;>
    simp [ofOperation, ofPrinted, tokens, tokens_withSigns, AddOp.op, MulOp.op, BinaryOp.token]

theorem expr_ofPrinted (signs : List Sign) (bare : Derivation .primary) :
    ParseTree.expr (ofPrinted signs bare).result =
      Expr.withSigns signs (ParseTree.expr bare.result) :=
  expr_withSigns signs (.ofPrimary bare)

theorem expr_ofOperation (op : BinaryOp) (leftSigns : List Sign) (left : Derivation .primary)
    (rightSigns : List Sign) (right : Derivation .primary) :
    (ofOperation op leftSigns left rightSigns right).expr =
      Expr.rereadOperation op leftSigns (ParseTree.expr left.result) rightSigns
        (ParseTree.expr right.result) := by
  have hleft := expr_ofPrinted leftSigns left
  have hright := expr_ofPrinted rightSigns right
  cases op with
  | power =>
    show ParseTree.expr (withSigns leftSigns (.raise left (ofPrinted rightSigns right))).result =
      Expr.withSigns leftSigns (.binary .power _ (Expr.withSigns rightSigns _))
    rw [expr_withSigns, ← hright]
    rfl
  | plus | minus | times | divide =>
    show Expr.binary _ (ParseTree.expr (ofPrinted leftSigns left).result)
      (ParseTree.expr (ofPrinted rightSigns right).result) = _
    rw [hleft, hright]
    rfl

/-- An argument list with its first argument apart from the others. -/
theorem argumentsTokens_cons (e : Expr) (rest : List Expr) :
    Expr.argumentsTokens (e :: rest) = e.tokens ++ rest.flatMap (fun e => .comma :: e.tokens) := by
  induction rest generalizing e with
  | nil => exact (List.append_nil _).symm
  | cons e' rest ih =>
    show e.tokens ++ .comma :: Expr.argumentsTokens (e' :: rest) = _
    rw [ih, List.flatMap_cons, List.cons_append]

mutual

/-- The tokens of a printed expression are derived. -/
theorem tokens_ofBare (e : Expr) : e.signs.map Sign.token ++ (ofBare e).tokens = e.tokens := by
  match e with
  | .number value =>
    show (ofBare (.number value)).tokens = [if value.isFinite then .number value else .name "inf"]
    rw [ofBare]
    cases value.isFinite <;> rfl
  | .name word => rfl
  | .call function [] => rfl
  | .call function (argument :: rest) =>
    have hargument := tokens_ofBare argument
    -- the first argument opens the list, and the others follow it
    have hrest := tokens_ofArguments rest
      (.one (.ofTerm (.ofUnary (ofPrinted argument.signs (ofBare argument)))))
    have hfirst : (ofPrinted argument.signs (ofBare argument)).tokens = argument.tokens := by
      rw [ofPrinted, tokens_withSigns]
      exact hargument
    show Token.name function :: .leftParen ::
      ((ofArguments (.one (.ofTerm (.ofUnary _))) rest).tokens ++ [.rightParen]) = _
    rw [hrest, Expr.tokens, argumentsTokens_cons, ← hfirst]
    rfl
  | .signed sign operand => exact congrArg (sign.token :: ·) (tokens_ofBare operand)
  | .binary op left right =>
    have hleft := tokens_ofBare left
    have hright := tokens_ofBare right
    show Token.leftParen :: ((ofOperation op left.signs (ofBare left) right.signs
      (ofBare right)).tokens ++ [.rightParen]) = _
    rw [tokens_ofOperation, hleft, hright, Expr.tokens, List.append_assoc, List.cons_append]

theorem tokens_ofArguments (es : List Expr) (before : Derivation .arguments) :
    (ofArguments before es).tokens = before.tokens ++ es.flatMap (fun e => .comma :: e.tokens) := by
  match es with
  | [] => exact (List.append_nil _).symm
  | e :: rest =>
    have he := tokens_ofBare e
    have hfirst : (ofPrinted e.signs (ofBare e)).tokens = e.tokens := by
      rw [ofPrinted, tokens_withSigns]
      exact he
    rw [ofArguments, tokens_ofArguments rest, List.flatMap_cons, ← hfirst, ← List.append_assoc]
    rfl

end

mutual

/-- The derivation stands for the expression that is read. -/
theorem expr_ofBare (e : Expr) : ParseTree.expr (ofBare e).result = e.rereadBare := by
  match e with
  | .number value =>
    rw [ofBare, Expr.rereadBare]
    cases value.isFinite <;> rfl
  | .name word => rfl
  | .call function [] => rfl
  | .call function (argument :: rest) =>
    have hargument := expr_ofBare argument
    have hrest := exprs_ofArguments rest
      (.one (.ofTerm (.ofUnary (ofPrinted argument.signs (ofBare argument)))))
    have hfirst := expr_ofPrinted argument.signs (ofBare argument)
    rw [hargument] at hfirst
    show Expr.call function (ParseTree.exprs
      (ofArguments (.one (.ofTerm (.ofUnary _))) rest).result) = _
    rw [hrest, Expr.rereadBare, Expr.rereadAll, ← hfirst]
    rfl
  | .signed sign operand => exact expr_ofBare operand
  | .binary op left right =>
    have hleft := expr_ofBare left
    have hright := expr_ofBare right
    show (ofOperation op left.signs (ofBare left) right.signs (ofBare right)).expr = _
    rw [expr_ofOperation, hleft, hright]
    rfl

theorem exprs_ofArguments (es : List Expr) (before : Derivation .arguments) :
    ParseTree.exprs (ofArguments before es).result =
      ParseTree.exprs before.result ++ Expr.rereadAll es := by
  match es with
  | [] => exact (List.append_nil _).symm
  | e :: rest =>
    have he := expr_ofBare e
    have hfirst := expr_ofPrinted e.signs (ofBare e)
    rw [he] at hfirst
    rw [ofArguments, exprs_ofArguments rest, Expr.rereadAll, ← hfirst]
    show ParseTree.exprs (before.result ++ [_]) ++ _ = _
    rw [ParseTree.exprs_append, List.append_assoc]
    rfl

end

theorem tokens_ofExpr (e : Expr) : (ofExpr e).tokens = e.tokens := by
  rw [← tokens_ofBare e]
  exact tokens_withSigns e.signs (.ofPrimary (ofBare e))

theorem expr_ofExpr (e : Expr) : (ofExpr e).expr = e.reread := by
  rw [Expr.reread, ← expr_ofBare e]
  exact expr_ofPrinted e.signs (ofBare e)

end Grammar.Derivation

end CurveArt
