import CurveArt.Proofs.Formula.Scope

/-!
# Formulas that draw nothing

The stream of a formula is read at one kind of leaf only, and compiling makes that leaf of calls to
`random` only. A formula without such a call is therefore a function of its inputs: it gives the
same at every state of its stream and leaves the stream where it is, in a single call as well as in
a sweep.

Main results:

* `Term.eval_of_drawCount`: a term without random leaves does not touch the stream.
* `Term.drawCount_resolve`: only calls to `random` become random leaves.
* `Curve.outcomes_of_drawCount`: a sweep of two such formulas does not depend on their streams.
-/

namespace CurveArt

/-! ## Calls to random -/

namespace Expr

/-- Whether an expression is a call to `random`, with or without the qualifier, whatever its
arguments are. -/
def IsRandomCall : Expr → Prop
  | .call function _ => function = "random" ∨ function = "math.random"
  | _ => False

/-- No call to `random` stands anywhere in the expression. -/
def WithoutRandom (e : Expr) : Prop :=
  ∀ part, Occurs part e → ¬part.IsRandomCall

theorem withoutRandom_iff {e : Expr} :
    e.WithoutRandom ↔ ¬e.IsRandomCall ∧ ∀ operand ∈ e.operands, operand.WithoutRandom :=
  forall_occurs_iff

mutual

/-- Looks for calls to `random` everywhere in an expression. -/
def hasNoRandom : Expr → Bool
  | .number _ | .name _ => true
  | .call function arguments =>
    function != "random" && function != "math.random" && allHaveNoRandom arguments
  | .signed _ operand => operand.hasNoRandom
  | .binary _ left right => left.hasNoRandom && right.hasNoRandom

def allHaveNoRandom : List Expr → Bool
  | [] => true
  | e :: rest => e.hasNoRandom && allHaveNoRandom rest

end

mutual

theorem hasNoRandom_iff : (e : Expr) → (e.hasNoRandom = true ↔ e.WithoutRandom)
  | .number value => by
    rw [withoutRandom_iff]
    simp [hasNoRandom, IsRandomCall, operands]
  | .name word => by
    rw [withoutRandom_iff]
    simp [hasNoRandom, IsRandomCall, operands]
  | .call function arguments => by
    have ih := allHaveNoRandom_iff arguments
    rw [withoutRandom_iff]
    simp [hasNoRandom, IsRandomCall, operands, ih]
  | .signed sign operand => by
    have ih := hasNoRandom_iff operand
    rw [withoutRandom_iff]
    simp [hasNoRandom, IsRandomCall, operands, ih]
  | .binary op left right => by
    have ihleft := hasNoRandom_iff left
    have ihright := hasNoRandom_iff right
    rw [withoutRandom_iff]
    simp [hasNoRandom, IsRandomCall, operands, ihleft, ihright]

theorem allHaveNoRandom_iff :
    (es : List Expr) → (allHaveNoRandom es = true ↔ ∀ e ∈ es, e.WithoutRandom)
  | [] => by simp [allHaveNoRandom]
  | e :: rest => by
    have hfirst := hasNoRandom_iff e
    have hrest := allHaveNoRandom_iff rest
    simp [allHaveNoRandom, hfirst, hrest]

end

instance {e : Expr} : Decidable e.WithoutRandom :=
  decidable_of_iff _ (hasNoRandom_iff e)

/-- The calls that are looked up as `random` are those that are spelled so. -/
theorem isRandomCall_of_ofName? {function : String} {arguments : List Expr}
    (h : Builtin.ofName? (unqualified function) = some .random) :
    (call function arguments).IsRandomCall :=
  Builtin.ofName?_unqualified.1 h

end Expr

/-! ## Terms -/

namespace Term

variable {n : Nat} {inputs : Fin n → Float}

/-- How many random leaves a term has. -/
def drawCount : Term n → Nat
  | .random => 1
  | .apply _ argument => argument.drawCount
  | .negate operand => operand.drawCount
  | .binary _ left right => left.drawCount + right.drawCount
  | _ => 0

/-- A term without random leaves has the same value at every state of the stream, and leaves the
stream as it is. -/
theorem eval_of_drawCount {t : Term n} (h : t.drawCount = 0) (s s' : Random.Stream) :
    t.eval inputs s' = ((t.eval inputs s).1, s') := by
  induction t generalizing s s' with
  | random => cases h
  | apply f argument ih =>
    rw [eval, eval, ih h s s']
    rcases eval inputs argument s with ⟨_ | x, left⟩
    · rfl
    · rfl
  | negate operand ih =>
    rw [eval, eval, ih h s s']
    rcases eval inputs operand s with ⟨_ | x, left⟩
    · rfl
    · rfl
  | binary op left right ihleft ihright =>
    obtain ⟨hleft, hright⟩ := Nat.add_eq_zero_iff.1 h
    rw [eval, eval, ihleft hleft s s']
    rcases eval inputs left s with ⟨_ | a, between⟩
    · rfl
    · -- the right operand begins where the left one has ended, wherever that is
      dsimp only
      rw [ihright hright between s']
      rcases eval inputs right between with ⟨_ | b, last⟩
      · rfl
      · rfl
  | constant | «variable» | unknownName | unknownFunction | wrongArity => rfl

/-- Only calls to `random` become random leaves. -/
theorem drawCount_resolve {vars : List String} {e : Expr} (h : e.WithoutRandom) :
    (resolve vars e).drawCount = 0 := by
  rw [Expr.withoutRandom_iff] at h
  fun_induction resolve vars e with
  | case1 value => rfl
  | case2 word =>
    -- a name is a variable, a constant or unknown
    rw [ofName]
    split
    · rfl
    · split <;> rfl
  | case3 function arguments hnone => rfl
  | case4 function hrandom => exact absurd (Expr.isRandomCall_of_ofName? hrandom) h.1
  | case5 function f argument hreal ih =>
    exact ih (Expr.withoutRandom_iff.1 (h.2 argument (List.mem_singleton_self argument)))
  | case6 function b arguments hempty hone hb => rfl
  | case7 operand ih =>
    exact ih (Expr.withoutRandom_iff.1 (h.2 operand (List.mem_singleton_self operand)))
  | case8 operand ih =>
    exact ih (Expr.withoutRandom_iff.1 (h.2 operand (List.mem_singleton_self operand)))
  | case9 op left right ihleft ihright =>
    have hleft := h.2 left (List.mem_cons_self ..)
    have hright := h.2 right (List.mem_cons_of_mem _ (List.mem_singleton_self right))
    rw [drawCount, ihleft (Expr.withoutRandom_iff.1 hleft),
      ihright (Expr.withoutRandom_iff.1 hright)]

end Term

/-! ## Formulas and sweeps -/

namespace Formula

variable {f : Formula} {text : String} {vars : List String}

/-- Calls of a formula without random leaves leave it as it is, and give the same from every state
of the stream. -/
theorem call_of_drawCount (h : f.body.drawCount = 0) (stream : Random.Stream)
    (inputs : List Float) :
    (f.at stream).call inputs = ((f.call inputs).1, f.at stream) := by
  by_cases hlength : inputs.length = f.vars.length
  · have hlength' : inputs.length = (f.at stream).vars.length := hlength
    let given : Fin f.vars.length → Float := fun slot => inputs.get (slot.cast hlength.symm)
    have heval : f.body.eval given stream = ((f.body.eval given f.stream).1, stream) :=
      Term.eval_of_drawCount h f.stream stream
    rw [call, call, dif_pos hlength, dif_pos hlength']
    exact congrArg (fun evaluated => (evaluated.1, { f with stream := evaluated.2 })) heval
  · have hlength' : inputs.length ≠ (f.at stream).vars.length := hlength
    rw [call, call, dif_neg hlength, dif_neg hlength']
    rfl

/-- What a text compiles to does not depend on the stream that it is given. -/
theorem compile_at (text : String) (vars : List String) (stream stream' : Random.Stream) :
    compile text vars stream' = (compile text vars stream).map (·.at stream') := by
  rw [compile, compile]
  split
  · rfl
  · split <;> rfl

/-- A text without calls to `random` compiles to a body without random leaves. -/
theorem drawCount_of_compile {stream : Random.Stream} (h : compile text vars stream = .ok f)
    (hrandom : ∀ e, Expr.ofText text = .ok e → e.WithoutRandom) : f.body.drawCount = 0 := by
  obtain ⟨-, e, hof, rfl⟩ := compile_eq_ok_iff.1 h
  exact Term.drawCount_resolve (hrandom e hof)

end Formula

/-- A sweep of two formulas without random leaves does not depend on their streams. -/
theorem Curve.outcomes_of_drawCount {first second : Formula} (hfirst : first.body.drawCount = 0)
    (hsecond : second.body.drawCount = 0) (stream stream' : Random.Stream)
    (inputs : List (List Float)) :
    outcomes (first.at stream) (second.at stream') inputs = outcomes first second inputs := by
  induction inputs with
  | nil => rfl
  | cons input inputs ih =>
    -- after its first calls a sweep goes on with the formulas that it began with
    have hleft : (first.call input).2 = first := by
      have := Formula.call_of_drawCount hfirst first.stream input
      exact congrArg Prod.snd this
    have hleft' : (second.call input).2 = second := by
      have := Formula.call_of_drawCount hsecond second.stream input
      exact congrArg Prod.snd this
    rw [outcomes_cons, outcomes_cons, Formula.call_of_drawCount hfirst,
      Formula.call_of_drawCount hsecond, hleft, hleft', ih]

end CurveArt
