import CurveArt.Proofs.Formula.Declaration

/-!
# Evaluation without checks

A term has its inputs numbered up to the number of variables, and no leaf of it applies `random` or
draws for another function: its type leaves no room for that. A `LooseTerm` has room for all of it.
Its slots are plain numbers, its calls keep whatever arguments they were written with, and reading an
input that is not there, applying `random` or drawing for another function are breaches that end its
evaluation. What compiling makes of an expression never comes to a breach, because every slot is the
place of its name among the variables and a call is evaluated only if the arity of its function
agrees with its arguments.

Main results:

* `LooseTerm.slots_resolve`: the slots, in their order, are the places of the names.
* `LooseTerm.eval_resolve`: evaluation without checks comes to what evaluation comes to.
* `Formula.call_unbreached`: both facts about compiled formulas, at inputs of any length.
-/

namespace CurveArt

namespace Expr

mutual

/-- The variables that an expression names, from left to right and as often as it does. A call of an
unknown function is left out with all that stands in it. -/
def namedVariables (vars : List String) : Expr → List String
  | .number _ => []
  | .name word => if word ∈ vars then [word] else []
  | .call function arguments =>
    if (Builtin.ofName? (unqualified function)).isSome then allNamedVariables vars arguments else []
  | .signed _ operand => operand.namedVariables vars
  | .binary _ left right => left.namedVariables vars ++ right.namedVariables vars

def allNamedVariables (vars : List String) : List Expr → List String
  | [] => []
  | e :: rest => e.namedVariables vars ++ allNamedVariables vars rest

end

end Expr

/-- A resolved expression of which nothing is left out and nothing is known to be safe. -/
inductive LooseTerm where
  | constant (value : Float)
  | variable (slot : Nat)
  | unknownName (name : String)
  | unknownFunction (name : String)
  | call (function : Builtin) (arguments : List LooseTerm)
  | negate (operand : LooseTerm)
  | binary (op : BinaryOp) (left right : LooseTerm)

namespace LooseTerm

/-! ## Looking names up -/

mutual

/-- The loose term of an expression. A call of a known function keeps all of its arguments. -/
def resolve (vars : List String) : Expr → LooseTerm
  | .number value => .constant value
  | .name word =>
    match vars.idxOf? word with
    | some slot => .variable slot
    | none =>
      match constant? (unqualified word) with
      | some value => .constant value
      | none => .unknownName word
  | .call function arguments =>
    match Builtin.ofName? (unqualified function) with
    | some b => .call b (resolveAll vars arguments)
    | none => .unknownFunction function
  | .signed .plus operand => resolve vars operand
  | .signed .minus operand => .negate (resolve vars operand)
  | .binary op left right => .binary op (resolve vars left) (resolve vars right)

def resolveAll (vars : List String) : List Expr → List LooseTerm
  | [] => []
  | e :: rest => resolve vars e :: resolveAll vars rest

end

mutual

/-- All slots of a loose term from left to right, those inside arguments included. -/
def slots : LooseTerm → List Nat
  | .variable slot => [slot]
  | .call _ arguments => allSlots arguments
  | .negate operand => operand.slots
  | .binary _ left right => left.slots ++ right.slots
  | _ => []

def allSlots : List LooseTerm → List Nat
  | [] => []
  | t :: rest => t.slots ++ allSlots rest

end

/-! ## Evaluation -/

/-- What an evaluation without checks could run into. -/
inductive Breach where
  /-- There is no input in this place. -/
  | noInput (slot : Nat)
  /-- `random` is applied to a number. -/
  | randomApplied
  /-- A number is drawn for another function. -/
  | strayDraw (f : RealFunction)
  deriving DecidableEq

/-- A function at a number. -/
def apply : Builtin → Float → Except Breach (Except EvalError Float)
  | .real f, x => .ok (Term.applyFunction f x)
  | .random, _ => .error .randomApplied

/-- A number drawn for a function. -/
def draw : Builtin → Random.Stream → Except Breach (Float × Random.Stream)
  | .random, s => .ok s.unit
  | .real f, _ => .error (.strayDraw f)

/-- The value of a loose term. A call whose arguments are as many as its function takes draws if it
has none, and applies the function to the first one otherwise. -/
def eval (inputs : List Float) :
    LooseTerm → Random.Stream → Except Breach (Except EvalError Float × Random.Stream)
  | .constant value, s => .ok (Term.checkFinite value, s)
  | .variable slot, s =>
    match inputs[slot]? with
    | some x => .ok (Term.checkFinite x, s)
    | none => .error (.noInput slot)
  | .unknownName name, s => .ok (.error (.unknownName name), s)
  | .unknownFunction name, s => .ok (.error (.unknownFunction name), s)
  | .call function arguments, s =>
    if arguments.length = function.arity then
      match arguments with
      | [] =>
        match draw function s with
        | .error breach => .error breach
        | .ok (x, s) => .ok (Term.checkFinite x, s)
      | argument :: _ =>
        match eval inputs argument s with
        | .error breach => .error breach
        | .ok (.error e, s) => .ok (.error e, s)
        | .ok (.ok x, s) =>
          match apply function x with
          | .error breach => .error breach
          | .ok result => .ok (result.bind Term.checkFinite, s)
    else .ok (.error (.wrongArity function arguments.length), s)
  | .negate operand, s =>
    match eval inputs operand s with
    | .error breach => .error breach
    | .ok (.error e, s) => .ok (.error e, s)
    | .ok (.ok x, s) => .ok (Term.checkFinite (-x), s)
  | .binary op left right, s =>
    match eval inputs left s with
    | .error breach => .error breach
    | .ok (.error e, s) => .ok (.error e, s)
    | .ok (.ok a, s) =>
      match eval inputs right s with
      | .error breach => .error breach
      | .ok (.error e, s) => .ok (.error e, s)
      | .ok (.ok b, s) => .ok ((Term.applyOp op a b).bind Term.checkFinite, s)

/-- A call over variables: nothing is evaluated unless there is one input for each of them. -/
def answer (vars : List String) (t : LooseTerm) (inputs : List Float) (s : Random.Stream) :
    Except Breach (Except EvalError Float × Random.Stream) :=
  if inputs.length = vars.length then t.eval inputs s
  else .ok (.error (.inputCount vars.length inputs.length), s)

/-! ## Slots are places of names -/

variable {vars : List String} {inputs : List Float} {word : String}

/-- The slot is the only place of the name among the variables. -/
def IsPlaceOf (vars : List String) (word : String) (slot : Nat) : Prop :=
  vars[slot]? = some word ∧ ∀ other : Nat, vars[other]? = some word → other = slot

/-- Searching for the place of a name by numbers or by checked numbers. -/
theorem idxOf?_eq (word : String) (vars : List String) :
    vars.idxOf? word = (Term.slot? word vars).map Fin.val := by
  induction vars with
  | nil => rfl
  | cons first vars ih =>
    rw [List.idxOf?_cons, Term.slot?_cons, ih]
    by_cases hfirst : first = word
    · rw [if_pos hfirst, if_pos (by rw [hfirst, BEq.rfl])]
      rfl
    · rw [if_neg hfirst, if_neg (by simpa using hfirst), Option.map_map, Option.map_map]
      rfl

theorem get_of_slot? {slot : Fin vars.length} (h : Term.slot? word vars = some slot) :
    vars.get slot = word := by
  induction vars with
  | nil => cases h
  | cons first vars ih =>
    rw [Term.slot?_cons] at h
    split at h
    · next hfirst =>
      rw [← Option.some.inj h]
      exact hfirst
    · obtain ⟨slot', hslot', rfl⟩ := Option.map_eq_some_iff.1 h
      exact ih hslot'

/-- Names that are distinct have one place each. -/
theorem isPlaceOf_of_idxOf? (hnodup : vars.Nodup) {slot : Nat}
    (h : vars.idxOf? word = some slot) : IsPlaceOf vars word slot := by
  rw [idxOf?_eq] at h
  obtain ⟨place, hplace, rfl⟩ := Option.map_eq_some_iff.1 h
  have hget := get_of_slot? hplace
  refine ⟨by rw [← hget]; exact List.getElem?_eq_getElem place.isLt, fun other hother => ?_⟩
  obtain ⟨hlt, hword⟩ := List.getElem?_eq_some_iff.1 hother
  have hsame : Term.slot? word vars = some ⟨other, hlt⟩ := by
    rw [← hword]
    exact Formula.slot?_get hnodup ⟨other, hlt⟩
  rw [hplace] at hsame
  rw [Option.some.inj hsame]

mutual

/-- **Slots are the places of names**, one after the other. -/
theorem slots_resolve (hnodup : vars.Nodup) :
    (e : Expr) → List.Forall₂ (IsPlaceOf vars) (e.namedVariables vars) (resolve vars e).slots
  | .number _ => .nil
  | .name word => by
    have hmem : word ∈ vars ↔ (vars.idxOf? word).isSome = true := by
      rw [idxOf?_eq, Option.isSome_map, Term.slot?_isSome]
    rw [Expr.namedVariables, resolve, if_congr hmem rfl rfl]
    cases hslot : vars.idxOf? word with
    | some slot => exact .cons (isPlaceOf_of_idxOf? hnodup hslot) .nil
    | none => cases constant? (unqualified word) <;> exact .nil
  | .call function arguments => by
    rw [Expr.namedVariables, resolve]
    cases Builtin.ofName? (unqualified function) with
    | some b => exact allSlots_resolve hnodup arguments
    | none => exact .nil
  | .signed .plus operand | .signed .minus operand => slots_resolve hnodup operand
  | .binary _ left right =>
    List.rel_append (slots_resolve hnodup left) (slots_resolve hnodup right)

theorem allSlots_resolve (hnodup : vars.Nodup) :
    (es : List Expr) →
      List.Forall₂ (IsPlaceOf vars) (Expr.allNamedVariables vars es) (allSlots (resolveAll vars es))
  | [] => .nil
  | e :: rest => List.rel_append (slots_resolve hnodup e) (allSlots_resolve hnodup rest)

end

/-- So there is a variable in every slot. -/
theorem slots_lt (hnodup : vars.Nodup) (e : Expr) :
    ∀ slot ∈ (resolve vars e).slots, slot < vars.length := by
  have hlt : ∀ slot word, IsPlaceOf vars word slot → slot < vars.length ∧ IsPlaceOf vars word slot :=
    fun slot word h => ⟨(List.getElem?_eq_some_iff.1 h.1).1, h⟩
  have hplaces := (slots_resolve hnodup e).flip.imp hlt
  exact ((List.forall₂_and_left _ _).1 hplaces).1

/-! ## Evaluation without checks -/

theorem length_resolveAll (vars : List String) (es : List Expr) :
    (resolveAll vars es).length = es.length := by
  induction es with
  | nil => rfl
  | cons e rest ih => rw [resolveAll, List.length_cons, List.length_cons, ih]

theorem eval_of_arity_ne {b : Builtin} {arguments : List LooseTerm}
    (h : arguments.length ≠ b.arity) (s : Random.Stream) :
    (call b arguments).eval inputs s = .ok (.error (.wrongArity b arguments.length), s) := by
  unfold eval
  exact if_neg h

/-- **Evaluation without checks** comes to what evaluation comes to. -/
theorem eval_resolve (h : inputs.length = vars.length) (e : Expr) (s : Random.Stream) :
    (resolve vars e).eval inputs s =
      .ok ((Term.resolve vars e).eval (fun slot => inputs.get (slot.cast h.symm)) s) := by
  fun_induction Term.resolve vars e generalizing s with
  | case1 value => rfl
  | case2 word =>
    rw [resolve, idxOf?_eq, Term.ofName]
    cases Term.slot? word vars with
    | some slot =>
      have hinput : inputs[slot.val]? = some (inputs.get (slot.cast h.symm)) :=
        List.getElem?_eq_getElem (slot.cast h.symm).isLt
      rw [Option.map_some]
      simp only [eval, hinput, Term.eval]
    | none =>
      rw [Option.map_none]
      cases constant? (unqualified word) <;> rfl
  | case3 function arguments hnone =>
    rw [resolve, hnone]
    rfl
  | case4 function hrandom =>
    rw [resolve, hrandom]
    rfl
  | case5 function f argument hreal ih =>
    rw [resolve, hreal]
    simp only [resolveAll, eval, List.length_singleton, Builtin.arity, if_true, ih, Term.eval]
    rcases Term.eval _ (Term.resolve vars argument) s with ⟨_ | x, s'⟩ <;> rfl
  | case6 function b arguments hempty hone hb =>
    -- the arity would have been one of the two that are evaluated
    have harity : arguments.length ≠ b.arity := by
      intro harity
      cases b with
      | random => exact hempty (List.length_eq_zero_iff.1 harity) rfl
      | real f =>
        obtain ⟨argument, rfl⟩ := List.length_eq_one_iff.1 harity
        exact hone f argument rfl rfl
    rw [resolve, hb, eval_of_arity_ne (by rwa [length_resolveAll]), length_resolveAll]
    rfl
  | case7 operand ih => exact ih s
  | case8 operand ih =>
    simp only [resolve, eval, ih, Term.eval]
    rcases Term.eval _ (Term.resolve vars operand) s with ⟨_ | x, s'⟩ <;> rfl
  | case9 op left right ihleft ihright =>
    simp only [resolve, eval, ihleft, Term.eval]
    rcases Term.eval _ (Term.resolve vars left) s with ⟨_ | a, s'⟩
    · rfl
    · simp only [ihright]
      rcases Term.eval _ (Term.resolve vars right) s' with ⟨_ | b, s''⟩ <;> rfl

/-- A slot that is no place of a variable is a breach. -/
example (s : Random.Stream) :
    (call (.real .sin) [.variable 1]).eval [0.5] s = .error (.noInput 1) := rfl

end LooseTerm

/-! ## Formulas -/

namespace Formula

/-- A compiled formula, evaluated without checks. -/
structure Unbreached (f : Formula) (vars : List String) (e : Expr) : Prop where
  /-- Slot by slot, the loose term of its expression has the places of the variables that are
  named. -/
  slots : List.Forall₂ (LooseTerm.IsPlaceOf vars) (e.namedVariables vars)
    (LooseTerm.resolve vars e).slots
  slot_lt : ∀ slot ∈ (LooseTerm.resolve vars e).slots, slot < vars.length
  /-- At inputs of any length no breach is met, and the answer and the stream that is left are those
  of a call. -/
  answer : ∀ s inputs, (LooseTerm.resolve vars e).answer vars inputs s =
    .ok (((f.at s).call inputs).1, ((f.at s).call inputs).2.stream)

/-- **Compiled formulas need no checks.** Every slot is the only place of its name, no input is read
that is not there, `random` is never applied to a number and nothing is drawn for any other
function. -/
theorem call_unbreached {text : String} {vars : List String} {stream : Random.Stream} {f : Formula}
    (h : compile text vars stream = .ok f) :
    ∃ e, Expr.ofText text = .ok e ∧ f.Unbreached vars e := by
  obtain ⟨hvars, e, hread, rfl⟩ := compile_eq_ok_iff.1 h
  have hnodup := (accepted_iff.1 hvars).1
  refine ⟨e, hread, LooseTerm.slots_resolve hnodup e, LooseTerm.slots_lt hnodup e,
    fun s inputs => ?_⟩
  show _ = Except.ok ((call ⟨_, vars, Term.resolve vars e, s⟩ inputs).1,
    (call ⟨_, vars, Term.resolve vars e, s⟩ inputs).2.stream)
  by_cases hlength : inputs.length = vars.length
  · rw [LooseTerm.answer, if_pos hlength, LooseTerm.eval_resolve hlength, call_eq hlength]
  · rw [LooseTerm.answer, if_neg hlength, call_of_length_ne hlength]

/-- A call with too many arguments keeps the slots in them, and they are places of names too. -/
theorem call_unbreached_overfull :
    ∃ f e, compile "x + random(y, sin(x))" ["x", "y"] (.ofSeed 1 1) = .ok f ∧
      Expr.ofText "x + random(y, sin(x))" = .ok e ∧ f.Unbreached ["x", "y"] e ∧
      e.namedVariables ["x", "y"] = ["x", "y", "x"] ∧
      (LooseTerm.resolve ["x", "y"] e).slots = [0, 1, 0] := by
  have hcompiled : (compile "x + random(y, sin(x))" ["x", "y"] (.ofSeed 1 1)).toOption.any
      fun _ => true := by decide +kernel
  have hslots : (Expr.ofText "x + random(y, sin(x))").toOption.all fun e =>
      decide (e.namedVariables ["x", "y"] = ["x", "y", "x"] ∧
        (LooseTerm.resolve ["x", "y"] e).slots = [0, 1, 0]) := by decide +kernel
  obtain ⟨f, h, -⟩ := exists_of_any hcompiled
  obtain ⟨e, hread, hunbreached⟩ := call_unbreached h
  rw [hread] at hslots
  exact ⟨f, e, h, hread, hunbreached, of_decide_eq_true hslots⟩

end Formula

end CurveArt
