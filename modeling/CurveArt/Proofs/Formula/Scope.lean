import CurveArt.Proofs.Curve.Sweep

/-!
# The closed vocabulary

A formula reaches nothing but its variables and the vocabulary. Names are looked up when a formula
is compiled and fail only when it is evaluated, so this is a fact about both stages together: what
compiling leaves in the term, and that evaluation skips no part of a term that has a value.

`Occurs` says what stands anywhere inside an expression, `Fits` what is asked of one place, and
`InVocabulary` asks it of all places.

Main results:

* `Term.closed_of_eval`: a term with a value has no place that fails whenever it is reached.
* `Term.eval_error_of_closed`: without such a place no error speaks of the vocabulary.
* `Term.resolve_closed_iff`: the places that compiling marks are those that do not fit.
* `Formula.closed_vocabulary`: only formulas within the vocabulary ever have a value.
-/

namespace CurveArt

/-! ## Parts of an expression -/

namespace Expr

/-- The expressions directly below an expression. -/
def operands : Expr → List Expr
  | .number _ | .name _ => []
  | .call _ arguments => arguments
  | .signed _ operand => [operand]
  | .binary _ left right => [left, right]

/-- `part` is the expression or stands somewhere inside it. -/
inductive Occurs (part : Expr) : Expr → Prop
  | here : Occurs part part
  | inside {operand whole : Expr} (hmem : operand ∈ whole.operands) (h : Occurs part operand) :
      Occurs part whole

/-- A fact about every place of an expression is one about its outermost place and one about every
place of its operands. -/
theorem forall_occurs_iff {P : Expr → Prop} {e : Expr} :
    (∀ part, Occurs part e → P part) ↔
      P e ∧ ∀ operand ∈ e.operands, ∀ part, Occurs part operand → P part := by
  constructor
  · intro h
    exact ⟨h e .here, fun operand hmem part hpart => h part (.inside hmem hpart)⟩
  · rintro ⟨houter, hoperands⟩ part hpart
    cases hpart with
    | here => exact houter
    | inside hmem hpart => exact hoperands _ hmem part hpart

/-- What the vocabulary asks of one place of an expression: a name is a variable or a constant, and
a call names a function and has as many arguments as that function takes. -/
def Fits (vars : List String) : Expr → Prop
  | .name word => word ∈ vars ∨ ∃ c ∈ constants, word = c.1 ∨ word = "math." ++ c.1
  | .call function arguments =>
    ∃ b : Builtin, (function = b.name ∨ function = "math." ++ b.name) ∧ arguments.length = b.arity
  | _ => True

/-- Every place of the expression fits. -/
def InVocabulary (vars : List String) (e : Expr) : Prop :=
  ∀ part, Occurs part e → part.Fits vars

/-- An expression is in the vocabulary if its outermost place fits and its operands are. -/
theorem inVocabulary_iff {vars : List String} {e : Expr} :
    e.InVocabulary vars ↔ e.Fits vars ∧ ∀ operand ∈ e.operands, operand.InVocabulary vars :=
  forall_occurs_iff

end Expr

/-! ## Names with and without the qualifier -/

theorem toList_qualified (bare : String) : ("math." ++ bare).toList = qualifier ++ bare.toList := by
  rw [String.toList_append]
  rfl

/-- The qualifier ends in a point. -/
theorem point_mem_qualified (bare : String) : '.' ∈ ("math." ++ bare).toList := by
  rw [toList_qualified]
  exact List.mem_append_left _ (by decide)

/-- Of the names without points, a word stands for the one that it spells, bare or behind one
qualifier. -/
theorem unqualified_eq_iff {word bare : String} (hbare : '.' ∉ bare.toList) :
    unqualified word = bare ↔ word = bare ∨ word = "math." ++ bare := by
  simp only [unqualified]
  constructor
  · intro h
    split at h
    · next hcut =>
      -- what is left of the word behind the qualifier is the bare name
      right
      obtain ⟨rest, hrest⟩ := List.isPrefixOf_iff_prefix.1 hcut.1
      rw [← hrest, List.drop_left] at h
      rw [← String.toList_inj, toList_qualified, ← hrest, ← h, String.toList_ofList]
    · exact .inl h
  · rintro (rfl | rfl)
    · -- a name without points does not begin with the qualifier, which ends in one
      rw [if_neg]
      rintro ⟨hpre, -⟩
      have hmem : '.' ∈ qualifier := by decide
      exact hbare ((List.isPrefixOf_iff_prefix.1 hpre).subset hmem)
    · rw [toList_qualified, List.drop_left, if_pos, String.ofList_toList]
      refine ⟨List.isPrefixOf_iff_prefix.2 (List.prefix_append _ _), ?_⟩
      simpa using hbare

theorem Builtin.ofName?_name (b : Builtin) : Builtin.ofName? b.name = some b := by
  cases b with
  | real f => cases f <;> rfl
  | random => rfl

theorem Builtin.no_point (b : Builtin) : '.' ∉ b.name.toList := by
  cases b with
  | real f => cases f <;> decide
  | random => decide

theorem Builtin.ofName?_unqualified {word : String} {b : Builtin} :
    Builtin.ofName? (unqualified word) = some b ↔ word = b.name ∨ word = "math." ++ b.name := by
  rw [← unqualified_eq_iff b.no_point]
  constructor
  · intro h
    have hname := List.find?_some h
    exact (beq_iff_eq.1 hname).symm
  · intro h
    rw [h, ofName?_name]

theorem constants_no_point : ∀ c ∈ constants, '.' ∉ c.1.toList := by
  decide

theorem constant?_isSome {name : String} :
    (constant? name).isSome ↔ ∃ c ∈ constants, name = c.1 := by
  rw [constant?, Option.isSome_map, List.find?_isSome]
  exact exists_congr fun c => and_congr_right fun _ => beq_iff_eq.trans eq_comm

theorem constant?_unqualified {word : String} :
    (constant? (unqualified word)).isSome ↔
      ∃ c ∈ constants, word = c.1 ∨ word = "math." ++ c.1 := by
  rw [constant?_isSome]
  exact exists_congr fun c => and_congr_right fun hc =>
    unqualified_eq_iff (constants_no_point c hc)

/-! ## Evaluation is strict -/

/-- The errors that speak of the vocabulary. -/
def EvalError.IsForeign : EvalError → Prop
  | .unknownName _ | .unknownFunction _ | .wrongArity _ _ => True
  | _ => False

namespace Term

variable {n : Nat} {inputs : Fin n → Float} {t : Term n} {s : Random.Stream} {x : Float}
  {cause : EvalError}

/-- No leaf of the term fails whenever it is reached. -/
def Closed : Term n → Prop
  | .constant _ | .variable _ | .random => True
  | .unknownName _ | .unknownFunction _ | .wrongArity _ _ => False
  | .apply _ argument => argument.Closed
  | .negate operand => operand.Closed
  | .binary _ left right => left.Closed ∧ right.Closed

/-- A value needs the values of all parts, so none of them is skipped. -/
theorem closed_of_eval (h : (eval inputs t s).1 = .ok x) : t.Closed := by
  -- the parts are evaluated with streams of their own, so the induction is for all streams
  induction t generalizing s x with
  | unknownName | unknownFunction | wrongArity => cases h
  | apply f argument ih =>
    simp only [eval] at h
    split at h
    · cases h
    · next heval => exact ih (congrArg Prod.fst heval)
  | negate operand ih =>
    simp only [eval] at h
    split at h
    · cases h
    · next heval => exact ih (congrArg Prod.fst heval)
  | binary op left right ihleft ihright =>
    simp only [eval] at h
    split at h
    · cases h
    · next hleft =>
      split at h
      · cases h
      · next hright => exact ⟨ihleft (congrArg Prod.fst hleft), ihright (congrArg Prod.fst hright)⟩
  | _ => trivial

theorem checkFinite_not_foreign (h : checkFinite x = .error cause) : ¬cause.IsForeign := by
  simp only [checkFinite] at h
  split at h
  · cases h
    exact id
  · split at h
    · cases h
      exact id
    · cases h

/-- An error of a step that ends in the check for finite values is one of the step or of the
check. -/
theorem bind_checkFinite_not_foreign {r : Except EvalError Float}
    (hr : ∀ cause, r = .error cause → ¬cause.IsForeign)
    (h : r.bind checkFinite = .error cause) : ¬cause.IsForeign := by
  cases r with
  | error first =>
    obtain rfl := Except.error.inj h
    exact hr first rfl
  | ok value => exact checkFinite_not_foreign h

theorem applyFunction_not_foreign {f : RealFunction} (h : applyFunction f x = .error cause) :
    ¬cause.IsForeign := by
  cases f with
  | log | sqrt =>
    -- the two functions with a domain
    simp only [applyFunction] at h
    split at h
    · cases h
      exact id
    · cases h
  | _ => cases h

theorem power_not_foreign {base exponent : Float} (h : power base exponent = .error cause) :
    ¬cause.IsForeign := by
  simp only [power] at h
  split at h
  · cases h
    exact id
  · split at h
    · cases h
      exact id
    · cases h

theorem applyOp_not_foreign {op : BinaryOp} {a b : Float} (h : applyOp op a b = .error cause) :
    ¬cause.IsForeign := by
  cases op with
  | plus | minus | times => cases h
  | divide =>
    simp only [applyOp] at h
    split at h
    · cases h
      exact id
    · cases h
  | power => exact power_not_foreign h

/-- A term without leaves that always fail never fails as they do. -/
theorem eval_error_of_closed (hclosed : t.Closed) (h : (eval inputs t s).1 = .error cause) :
    ¬cause.IsForeign := by
  induction t generalizing s cause with
  | unknownName | unknownFunction | wrongArity => exact hclosed.elim
  | apply f argument ih =>
    -- the error is one of the argument, or one of the function at a value
    simp only [eval] at h
    split at h
    · next heval => exact ih hclosed (by rw [heval]; exact h)
    · exact bind_checkFinite_not_foreign (fun _ => applyFunction_not_foreign) h
  | negate operand ih =>
    simp only [eval] at h
    split at h
    · next heval => exact ih hclosed (by rw [heval]; exact h)
    · exact checkFinite_not_foreign h
  | binary op left right ihleft ihright =>
    simp only [eval] at h
    split at h
    · next hleft => exact ihleft hclosed.1 (by rw [hleft]; exact h)
    · split at h
      · next hright => exact ihright hclosed.2 (by rw [hright]; exact h)
      · exact bind_checkFinite_not_foreign (fun _ => applyOp_not_foreign) h
  | _ => exact checkFinite_not_foreign h

/-! ## What compiling marks -/

theorem slot?_cons (word first : String) (rest : List String) :
    slot? word (first :: rest) =
      if first = word then some 0 else (slot? word rest).map Fin.succ :=
  rfl

theorem slot?_isSome {word : String} {names : List String} :
    (slot? word names).isSome ↔ word ∈ names := by
  induction names with
  | nil => exact ⟨nofun, nofun⟩
  | cons first rest ih =>
    rw [slot?_cons]
    split
    · next h => simp [h]
    · next h => simp [ih, Ne.symm h]

theorem ofName_closed {vars : List String} {word : String} :
    (ofName vars word).Closed ↔ (Expr.name word).Fits vars := by
  rw [Expr.Fits, ← slot?_isSome, ← constant?_unqualified, ofName]
  -- a variable comes before a constant of the same name
  split
  · next hslot => simp [hslot, Closed]
  · next hslot =>
    split
    · next hconstant => simp [hconstant, Closed]
    · next hconstant => simp [hslot, hconstant, Closed]

section Resolving

variable (vars : List String)

theorem resolve_name (word : String) : resolve vars (.name word) = ofName vars word :=
  rfl

theorem resolve_minus (operand : Expr) :
    resolve vars (.signed .minus operand) = .negate (resolve vars operand) :=
  rfl

theorem resolve_binary (op : BinaryOp) (left right : Expr) :
    resolve vars (.binary op left right) = .binary op (resolve vars left) (resolve vars right) :=
  rfl

theorem resolve_unknown {function : String} (h : Builtin.ofName? (unqualified function) = none)
    (arguments : List Expr) :
    resolve vars (.call function arguments) = .unknownFunction function := by
  unfold resolve
  rw [h]

end Resolving

/-- Compiling marks exactly the places of an expression that do not fit. -/
theorem resolve_closed_iff {vars : List String} {e : Expr} :
    (resolve vars e).Closed ↔ e.InVocabulary vars := by
  rw [Expr.inVocabulary_iff]
  fun_induction resolve vars e with
  | case1 value => simp [Closed, Expr.Fits, Expr.operands]
  | case2 word => simp [ofName_closed, Expr.operands]
  | case3 function arguments hnone =>
    -- an unknown function, of which no argument is looked at
    refine ⟨False.elim, ?_⟩
    rintro ⟨⟨b, hname, -⟩, -⟩
    rw [Builtin.ofName?_unqualified.2 hname] at hnone
    cases hnone
  | case4 function hrandom =>
    refine ⟨fun _ => ⟨⟨.random, Builtin.ofName?_unqualified.1 hrandom, rfl⟩, ?_⟩, fun _ => trivial⟩
    intro operand hmem
    cases hmem
  | case5 function f argument hreal ih =>
    -- the call fits, so all that is asked is asked of its argument
    rw [Closed, ih, ← Expr.inVocabulary_iff]
    have hfits : (Expr.call function [argument]).Fits vars :=
      ⟨.real f, Builtin.ofName?_unqualified.1 hreal, rfl⟩
    simp [hfits, Expr.operands]
  | case6 function b arguments hempty hone hb =>
    -- a known function: its arity would have been one of the two that are resolved
    refine ⟨False.elim, ?_⟩
    rintro ⟨⟨b', hname, hlength⟩, -⟩
    rw [Builtin.ofName?_unqualified.2 hname] at hb
    obtain rfl := Option.some.inj hb
    cases b' with
    | random => exact hempty (List.length_eq_zero_iff.1 hlength) rfl
    | real f =>
      obtain ⟨argument, rfl⟩ := List.length_eq_one_iff.1 hlength
      exact hone f argument rfl rfl
  | case7 operand ih =>
    rw [ih, ← Expr.inVocabulary_iff]
    simp [Expr.Fits, Expr.operands]
  | case8 operand ih =>
    rw [Closed, ih, ← Expr.inVocabulary_iff]
    simp [Expr.Fits, Expr.operands]
  | case9 op left right ihleft ihright =>
    rw [Closed, ihleft, ihright, ← Expr.inVocabulary_iff, ← Expr.inVocabulary_iff]
    simp [Expr.Fits, Expr.operands]

def decideClosed : (t : Term n) → Decidable t.Closed
  | .constant _ | .variable _ | .random => isTrue trivial
  | .unknownName _ | .unknownFunction _ | .wrongArity _ _ => isFalse id
  | .apply _ argument => decideClosed argument
  | .negate operand => decideClosed operand
  | .binary _ left right => @instDecidableAnd _ _ (decideClosed left) (decideClosed right)

instance : Decidable t.Closed :=
  decideClosed t

end Term

instance {vars : List String} {e : Expr} : Decidable (e.InVocabulary vars) :=
  decidable_of_iff _ Term.resolve_closed_iff

/-! ## Formulas -/

namespace Formula

variable {text : String} {vars : List String} {stream : Random.Stream} {f : Formula}

/-- What compiling gives: the declared variables and the resolved expression of the text. -/
theorem compile_eq_ok_iff :
    compile text vars stream = .ok f ↔
      badVariable? [] vars = none ∧ ∃ e, Expr.ofText text = .ok e ∧
        f = ⟨Text.trimmed text, vars, Term.resolve vars e, stream⟩ := by
  rw [compile]
  split
  · next hbad => simp [hbad]
  · next hnone =>
    split
    · next herror => simp [herror]
    · next e hof => simp [hnone, hof, eq_comm]

/-- A call with the right number of inputs is an evaluation of the body. -/
theorem call_of_length {inputs : List Float} (h : inputs.length = f.vars.length) :
    (f.call inputs).1 = (f.body.eval (fun slot => inputs.get (slot.cast h.symm)) f.stream).1 := by
  rw [call, dif_pos h]

/-- A formula that ever has a value has a closed body. -/
theorem closed_of_call {inputs : List Float} {value : Float} (h : (f.call inputs).1 = .ok value) :
    f.body.Closed := by
  by_cases hlength : inputs.length = f.vars.length
  · rw [call_of_length hlength] at h
    exact Term.closed_of_eval h
  · rw [call, dif_neg hlength] at h
    cases h

/-- A formula with a closed body fails for other reasons only. -/
theorem call_error_of_closed {inputs : List Float} {cause : EvalError} (hclosed : f.body.Closed)
    (h : (f.call inputs).1 = .error cause) : ¬cause.IsForeign := by
  by_cases hlength : inputs.length = f.vars.length
  · rw [call_of_length hlength] at h
    exact Term.eval_error_of_closed hclosed h
  · rw [call, dif_neg hlength] at h
    obtain rfl := Except.error.inj h
    exact id

/-- **The vocabulary is closed.** If a compiled formula ever has a value, every name and every call
in its expression is within the vocabulary. If they all are, no call fails for a name, a function or
a number of arguments. One place outside, however deep, and every step of every sweep fails. -/
theorem closed_vocabulary (h : compile text vars stream = .ok f) :
    ∃ e, Expr.ofText text = .ok e ∧
      (∀ stream' inputs value, ((f.at stream').call inputs).1 = .ok value →
        e.InVocabulary vars) ∧
      (e.InVocabulary vars → ∀ stream' inputs cause,
        ((f.at stream').call inputs).1 = .error cause → ¬cause.IsForeign) ∧
      (∀ part : Expr, part.Occurs e → ¬part.Fits vars →
        (∀ stream' inputs, ∃ cause, ((f.at stream').call inputs).1 = .error cause) ∧
        ∀ stream' other inputs,
          (∀ o ∈ Curve.outcomes (f.at stream') other inputs, ∃ cause, o.first = .error cause) ∧
          ∀ o ∈ Curve.outcomes other (f.at stream') inputs, ∃ cause, o.second = .error cause) := by
  obtain ⟨-, e, hof, rfl⟩ := compile_eq_ok_iff.1 h
  -- a value closes the body, and a closed body is an expression in the vocabulary
  have hvalue : ∀ stream' inputs value,
      ((Formula.at ⟨Text.trimmed text, vars, Term.resolve vars e, stream⟩ stream').call inputs).1 =
        .ok value → e.InVocabulary vars :=
    fun stream' inputs value h => Term.resolve_closed_iff.1 (closed_of_call h)
  refine ⟨e, hof, hvalue, fun hin stream' inputs cause herror => ?_, fun part hpart hfits => ?_⟩
  · exact call_error_of_closed (Term.resolve_closed_iff.2 hin) herror
  · have hfails : ∀ stream' inputs, ∃ cause,
        ((Formula.at ⟨Text.trimmed text, vars, Term.resolve vars e, stream⟩ stream').call
          inputs).1 = .error cause := by
      intro stream' inputs
      cases hcall : (Formula.call _ inputs).1 with
      | error cause => exact ⟨cause, rfl⟩
      | ok value => exact absurd (hvalue stream' inputs value hcall part hpart) hfits
    -- a sweep changes only the streams between its calls
    refine ⟨hfails, fun stream' other inputs => ⟨fun o ho => ?_, fun o ho => ?_⟩⟩
    · obtain ⟨left, -, hfirst, -⟩ := Curve.mem_outcomes ho
      rw [hfirst]
      exact hfails left o.inputs
    · obtain ⟨-, left, -, hsecond⟩ := Curve.mem_outcomes ho
      rw [hsecond]
      exact hfails left o.inputs

/-- A name that is not declared, inside an argument on the right, leaves a formula without any
value. -/
theorem no_value_of_undeclared :
    ∃ f, compile "x + sin(2 * y)" ["x"] (.ofSeed 1 1) = .ok f ∧
      ∀ stream inputs value, ((f.at stream).call inputs).1 ≠ .ok value := by
  have hread : (compile "x + sin(2 * y)" ["x"] (.ofSeed 1 1)).isOk = true := by decide +kernel
  have hforeign : (Expr.ofText "x + sin(2 * y)").toOption.all
      fun e => decide (¬e.InVocabulary ["x"]) := by decide +kernel
  cases h : compile "x + sin(2 * y)" ["x"] (.ofSeed 1 1) with
  | error cause =>
    rw [h] at hread
    cases hread
  | ok f =>
    obtain ⟨e, hof, hvalue, -⟩ := closed_vocabulary h
    rw [hof] at hforeign
    refine ⟨f, rfl, fun stream inputs value hcall => ?_⟩
    exact of_decide_eq_true hforeign (hvalue stream inputs value hcall)

end Formula

end CurveArt
