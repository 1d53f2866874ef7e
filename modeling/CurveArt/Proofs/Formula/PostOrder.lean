import CurveArt.Proofs.Color.Range
import CurveArt.Proofs.Formula.Alone
import CurveArt.Proofs.Formula.Draws

/-!
# Evaluation as a run over nodes

To evaluate an expression is to execute its nodes one after the other on a stack of values, from
left to right and every node behind its operands. A node takes the values of its operands off the
stack and puts its own there, or it fails and the run ends with its error. A call of an unknown
function, or with a wrong number of arguments, is a node that fails, and its arguments are passed
over.

The run knows an expression only by its nodes and the inputs only by the names that they have.
Everything that happens on the way to a value can be read off it: which node fails first, which
draws have been made by then, and that nothing on the stack is ever infinite or not a number.

Main results:

* `run_schedule`: a run over the nodes of an expression does what its evaluation does.
* `run_stream`, `run_isFinite`: what every run keeps, from what one node keeps.
* `Formula.call_runsStrictly`: calling a compiled formula is a run over the nodes of its expression.
* `Curve.outcomes_eq_checked`: a sweep that looks at every value comes to the same outcomes.
-/

namespace CurveArt

/-- A result that passes a test is one. -/
theorem exists_of_any {ε α : Type} {r : Except ε α} {p : α → Bool}
    (h : r.toOption.any p = true) : ∃ a, r = .ok a ∧ p a = true := by
  cases r with
  | error cause => cases h
  | ok a => exact ⟨a, rfl, h⟩

/-! ## Draws from the unit interval -/

namespace Random.Stream

/-- The stream after a number of draws from the unit interval. -/
def afterUnits (s : Stream) : Nat → Stream
  | 0 => s
  | n + 1 => (s.afterUnits n).unit.2

theorem afterUnits_add (s : Stream) (m n : Nat) :
    s.afterUnits (m + n) = (s.afterUnits m).afterUnits n := by
  induction n with
  | zero => rfl
  | succ n ih => exact congrArg (fun s => s.unit.2) ih

end Random.Stream

/-! ## Nodes in post-order -/

namespace Expr

mutual

/-- The nodes of an expression, each behind its operands and these from left to right. The
arguments of a call are passed over unless `enters` says so of the function and their number. -/
def postOrder (enters : String → Nat → Bool) : Expr → List Expr
  | .number value => [.number value]
  | .name word => [.name word]
  | .call function arguments =>
    if enters function arguments.length then
      postOrders enters arguments ++ [.call function arguments]
    else [.call function arguments]
  | .signed sign operand => operand.postOrder enters ++ [.signed sign operand]
  | .binary op left right =>
    left.postOrder enters ++ (right.postOrder enters ++ [.binary op left right])

def postOrders (enters : String → Nat → Bool) : List Expr → List Expr
  | [] => []
  | e :: rest => e.postOrder enters ++ postOrders enters rest

end

/-- Whether a function is known and takes the given number of arguments. -/
def takes (function : String) (found : Nat) : Bool :=
  (Builtin.ofName? (unqualified function)).any fun b => b.arity == found

/-- The nodes that are executed, unless one of them fails. -/
def schedule (e : Expr) : List Expr :=
  e.postOrder takes

theorem takes_iff {function : String} {found : Nat} :
    takes function found = true ↔
      ∃ b, Builtin.ofName? (unqualified function) = some b ∧ b.arity = found := by
  rw [takes, Option.any_eq_true]
  simp only [beq_iff_eq]

theorem postOrders_eq (enters : String → Nat → Bool) (es : List Expr) :
    postOrders enters es = es.flatMap (postOrder enters) := by
  induction es with
  | nil => rfl
  | cons e rest ih => rw [postOrders, ih, List.flatMap_cons]

theorem schedule_call {function : String} {arguments : List Expr}
    (h : takes function arguments.length = true) :
    (call function arguments).schedule =
      arguments.flatMap schedule ++ [call function arguments] := by
  rw [schedule, postOrder, if_pos h, postOrders_eq]
  rfl

theorem schedule_foreign {function : String} {arguments : List Expr}
    (h : takes function arguments.length = false) :
    (call function arguments).schedule = [call function arguments] := by
  rw [schedule, postOrder, if_neg (by rw [h]; decide)]

theorem schedule_signed (sign : Sign) (operand : Expr) :
    (signed sign operand).schedule = operand.schedule ++ [signed sign operand] :=
  rfl

theorem schedule_binary (op : BinaryOp) (left right : Expr) :
    (binary op left right).schedule =
      left.schedule ++ (right.schedule ++ [binary op left right]) :=
  rfl

/-- Whether a node draws a number: a call to `random` without arguments. -/
def draws : Expr → Bool
  | .call function [] => function == "random" || function == "math.random"
  | _ => false

theorem draws_iff {node : Expr} :
    node.draws = true ↔
      ∃ function, node = call function [] ∧
        Builtin.ofName? (unqualified function) = some .random := by
  constructor
  · intro h
    unfold draws at h
    split at h
    · next function =>
      have hname : function = "random" ∨ function = "math.random" := by simpa using h
      exact ⟨function, rfl, Builtin.ofName?_unqualified.2 hname⟩
    · cases h
  · rintro ⟨function, rfl, hrandom⟩
    have hname : function = "random" ∨ function = "math.random" :=
      Builtin.ofName?_unqualified.1 hrandom
    simpa [draws] using hname

end Expr

/-! ## Executing nodes -/

/-- What a name stands for: the value of the first binding of that name, then a constant, with or
without the qualifier. -/
def meaning? (bindings : List (String × Float)) (word : String) : Option Float :=
  (bindings.lookup word).or (constant? (unqualified word))

/-- A place in a run: the values on the stack, the last one first, and the stream. -/
structure Machine where
  stack : List Float
  stream : Random.Stream

namespace Machine

/-- What a node does when its turn comes. -/
inductive Operation where
  /-- Gives a value or fails, whatever is on the stack. -/
  | leaf (value : Except EvalError Float)
  | draw
  | unary (f : Float → Except EvalError Float)
  | binary (f : Float → Float → Except EvalError Float)

/-- How many numbers an operation draws. -/
def Operation.drawCount : Operation → Nat
  | .draw => 1
  | _ => 0

/-- Why a run does not go on. -/
inductive Stop where
  | failure (cause : EvalError)
  /-- A node finds fewer values than it takes. -/
  | starved

/-- How a run ends. -/
inductive Ending where
  | finished (m : Machine)
  | stopped (stop : Stop) (stream : Random.Stream)

/-- The operation of a node, where names stand for what `env` says. -/
def operation (env : String → Option Float) : Expr → Operation
  | .number value => .leaf (.ok value)
  | .name word =>
    match env word with
    | some value => .leaf (.ok value)
    | none => .leaf (.error (.unknownName word))
  | .call function arguments =>
    match Builtin.ofName? (unqualified function) with
    | none => .leaf (.error (.unknownFunction function))
    | some b =>
      if b.arity = arguments.length then
        match b with
        | .random => .draw
        | .real f => .unary (Term.applyFunction f)
      else .leaf (.error (.wrongArity b arguments.length))
  | .signed .plus _ => .unary fun x => .ok x
  | .signed .minus _ => .unary fun x => .ok (-x)
  | .binary op _ _ => .binary (Term.applyOp op)

/-- A value that is given, or the failure to give one. -/
def give (m : Machine) : Except EvalError Float → Except Stop (Float × Machine)
  | .ok x => .ok (x, m)
  | .error cause => .error (.failure cause)

/-- The value that an operation comes to, and the machine without its operands. -/
def compute : Operation → Machine → Except Stop (Float × Machine)
  | .leaf value, m => m.give value
  | .draw, ⟨stack, s⟩ => .ok (s.unit.1, ⟨stack, s.unit.2⟩)
  | .unary f, ⟨x :: stack, s⟩ => give ⟨stack, s⟩ (f x)
  | .binary f, ⟨b :: a :: stack, s⟩ => give ⟨stack, s⟩ (f a b)
  | _, _ => .error .starved

/-- Puts a value on the stack, unless it is infinite or not a number. -/
def push (x : Float) (m : Machine) : Except Stop Machine :=
  match Term.checkFinite x with
  | .ok x => .ok ⟨x :: m.stack, m.stream⟩
  | .error cause => .error (.failure cause)

/-- Executes one node. -/
def execute (env : String → Option Float) (node : Expr) (m : Machine) : Except Stop Machine :=
  match compute (operation env node) m with
  | .ok (x, m) => push x m
  | .error stop => .error stop

/-- Executes nodes in their order, up to the first one that does not succeed. -/
def run (env : String → Option Float) : List Expr → Machine → Ending
  | [], m => .finished m
  | node :: rest, m =>
    match execute env node m with
    | .ok next => run env rest next
    | .error stop => .stopped stop m.stream

variable {env : String → Option Float} {nodes rest : List Expr} {node : Expr} {m m' : Machine}
  {s : Random.Stream} {stop : Stop} {x : Float}

/-! ## Runs -/

theorem run_cons_ok (h : execute env node m = .ok m') :
    run env (node :: rest) m = run env rest m' := by
  rw [run, h]

theorem run_cons_error (h : execute env node m = .error stop) :
    run env (node :: rest) m = .stopped stop m.stream := by
  rw [run, h]

/-- A run finishes if its first node succeeds and the rest of it finishes from there. -/
theorem run_cons_finished :
    run env (node :: nodes) m = .finished m' ↔
      ∃ next, execute env node m = .ok next ∧ run env nodes next = .finished m' := by
  cases hnode : execute env node m with
  | error stop =>
    rw [run_cons_error hnode]
    exact ⟨nofun, nofun⟩
  | ok next =>
    rw [run_cons_ok hnode]
    constructor
    · intro h
      exact ⟨next, rfl, h⟩
    · rintro ⟨other, hother, h⟩
      rwa [Except.ok.inj hother]

/-- A run goes on from where its first part has finished. -/
theorem run_append (h : run env nodes m = .finished m') :
    run env (nodes ++ rest) m = run env rest m' := by
  induction nodes generalizing m with
  | nil =>
    obtain rfl := Ending.finished.inj h
    rfl
  | cons node nodes ih =>
    obtain ⟨next, hnode, hrest⟩ := run_cons_finished.1 h
    rw [List.cons_append, run_cons_ok hnode, ih hrest]

/-- A run that stops has executed all nodes before the one that stops it. -/
theorem exists_of_run_stopped (h : run env nodes m = .stopped stop s) :
    ∃ executed node rest m', nodes = executed ++ node :: rest ∧
      run env executed m = .finished m' ∧ execute env node m' = .error stop ∧ m'.stream = s := by
  induction nodes generalizing m with
  | nil => cases h
  | cons node nodes ih =>
    cases hnode : execute env node m with
    | error stop' =>
      rw [run_cons_error hnode] at h
      obtain ⟨rfl, rfl⟩ := Ending.stopped.inj h
      exact ⟨[], node, nodes, m, rfl, rfl, hnode, rfl⟩
    | ok next =>
      rw [run_cons_ok hnode] at h
      obtain ⟨executed, node', rest, m', rfl, hrun, hstop, hstream⟩ := ih h
      exact ⟨node :: executed, node', rest, m', rfl, run_cons_finished.2 ⟨next, hnode, hrun⟩, hstop,
        hstream⟩

/-! ## One node -/

/-- What is left to do with the outcome of an operand: with its value on the stack the run goes on,
with its error it stops. -/
def resume (env : String → Option Float) (rest : List Expr) (stack : List Float) :
    Except EvalError Float × Random.Stream → Ending
  | (.ok x, s) => run env rest ⟨x :: stack, s⟩
  | (.error cause, s) => .stopped (.failure cause) s

variable {stack : List Float} {r : Except EvalError Float}

/-- A node that does not draw gives its checked value, or stops the run. -/
theorem run_of_give (h : compute (operation env node) ⟨stack', s⟩ = give ⟨stack, s⟩ r) :
    run env (node :: rest) ⟨stack', s⟩ = resume env rest stack (r.bind Term.checkFinite, s) := by
  rw [run, execute, h]
  cases r with
  | error cause => rfl
  | ok x =>
    -- the check on the way to the stack is the one that evaluation ends with
    show (match push x ⟨stack, s⟩ with
      | .ok next => run env rest next
      | .error stop => Ending.stopped stop s) = resume env rest stack (Term.checkFinite x, s)
    rw [push]
    cases Term.checkFinite x with
    | error cause => rfl
    | ok y => rfl

theorem run_of_leaf (h : operation env node = .leaf r) :
    run env (node :: rest) ⟨stack, s⟩ = resume env rest stack (r.bind Term.checkFinite, s) :=
  run_of_give (by rw [h]; rfl)

theorem run_of_unary {f : Float → Except EvalError Float} (h : operation env node = .unary f)
    (x : Float) :
    run env (node :: rest) ⟨x :: stack, s⟩ =
      resume env rest stack ((f x).bind Term.checkFinite, s) :=
  run_of_give (by rw [h]; rfl)

theorem run_of_binary {f : Float → Float → Except EvalError Float}
    (h : operation env node = .binary f) (a b : Float) :
    run env (node :: rest) ⟨b :: a :: stack, s⟩ =
      resume env rest stack ((f a b).bind Term.checkFinite, s) :=
  run_of_give (by rw [h]; rfl)

/-- Numbers that are finite pass the check. -/
theorem checkFinite_of_isFinite (h : x.isFinite = true) : Term.checkFinite x = .ok x := by
  rw [Term.checkFinite, if_neg (by rw [Binary64.isNaN_of_isFinite h]; decide),
    if_neg (by rw [Binary64.isInf_of_isFinite h]; decide)]

/-- What does not pass is refused for what it is. -/
theorem checkFinite_of_not_isFinite (h : x.isFinite = false) :
    Term.checkFinite x = .error (if x.isNaN then .nonReal else .nonFinite) := by
  cases hcheck : Term.checkFinite x with
  | ok y =>
    have hfinite := Term.checkFinite_isFinite hcheck
    rw [Term.checkFinite] at hcheck
    split at hcheck
    · cases hcheck
    · split at hcheck
      · cases hcheck
      · obtain rfl := Except.ok.inj hcheck
        rw [h] at hfinite
        cases hfinite
  | error cause =>
    rw [Term.checkFinite] at hcheck
    split at hcheck
    · next hnan =>
      rw [if_pos hnan]
      exact hcheck.symm
    · next hnan =>
      rw [if_neg hnan]
      split at hcheck
      · exact hcheck.symm
      · cases hcheck

theorem push_of_isFinite (h : x.isFinite = true) (m : Machine) :
    push x m = .ok ⟨x :: m.stack, m.stream⟩ := by
  rw [push, checkFinite_of_isFinite h]

theorem push_of_not_isFinite (h : x.isFinite = false) (m : Machine) :
    push x m = .error (.failure (if x.isNaN then .nonReal else .nonFinite)) := by
  rw [push, checkFinite_of_not_isFinite h]

/-- A draw never stops a run. -/
theorem run_of_draw (h : operation env node = .draw) :
    run env (node :: rest) ⟨stack, s⟩ =
      resume env rest stack (Term.checkFinite s.unit.1, s.unit.2) := by
  have hcheck := checkFinite_of_isFinite (unit_inUnit s).isFinite
  rw [run, execute, h]
  simp only [compute, push, hcheck, resume]

/-! ## The nodes of an expression -/

variable {vars : List String} {inputs : List Float}

theorem lookup_zip (h : inputs.length = vars.length) (word : String) :
    (vars.zip inputs).lookup word =
      (Term.slot? word vars).map fun slot => inputs.get (slot.cast h.symm) := by
  induction vars generalizing inputs with
  | nil => rfl
  | cons first vars ih =>
    cases inputs with
    | nil => cases h
    | cons x inputs =>
      rw [List.zip_cons_cons, List.lookup_cons, Term.slot?_cons]
      by_cases hfirst : first = word
      · rw [if_pos hfirst, hfirst, BEq.rfl]
        rfl
      · rw [if_neg hfirst, beq_false_of_ne (Ne.symm hfirst), Option.map_map]
        exact ih (Nat.succ.inj h)

/-- A name is executed as it is resolved. -/
theorem operation_name (h : inputs.length = vars.length) (word : String) (s : Random.Stream) :
    ∃ r, operation (meaning? (vars.zip inputs)) (.name word) = .leaf r ∧
      (Term.ofName vars word).eval (fun slot => inputs.get (slot.cast h.symm)) s =
        (r.bind Term.checkFinite, s) := by
  simp only [operation, meaning?, lookup_zip h, Term.ofName]
  -- a variable comes before a constant of the same name
  cases Term.slot? word vars with
  | some slot => exact ⟨.ok (inputs.get (slot.cast h.symm)), rfl, rfl⟩
  | none =>
    cases constant? (unqualified word) with
    | some value => exact ⟨.ok value, rfl, rfl⟩
    | none => exact ⟨.error (.unknownName word), rfl, rfl⟩

/-- **A run over the nodes of an expression** does what its evaluation does: it goes on with the
value on the stack, or stops with the error, and the stream is the same. -/
theorem run_schedule (h : inputs.length = vars.length) (e : Expr) (rest : List Expr)
    (stack : List Float) (s : Random.Stream) :
    run (meaning? (vars.zip inputs)) (e.schedule ++ rest) ⟨stack, s⟩ =
      resume (meaning? (vars.zip inputs)) rest stack
        ((Term.resolve vars e).eval (fun slot => inputs.get (slot.cast h.symm)) s) := by
  -- what comes behind the nodes, and what lies below on the stack, is different for every operand
  fun_induction Term.resolve vars e generalizing rest stack s with
  | case1 value =>
    have hop : operation (meaning? (vars.zip inputs)) (.number value) = .leaf (.ok value) := rfl
    exact run_of_leaf hop
  | case2 word =>
    obtain ⟨r, hop, heval⟩ := operation_name h word s
    rw [heval]
    exact run_of_leaf hop
  | case3 function arguments hnone =>
    have hforeign : Expr.takes function arguments.length = false := by
      rw [Expr.takes, hnone]
      rfl
    have hop : operation (meaning? (vars.zip inputs)) (.call function arguments) =
        .leaf (.error (.unknownFunction function)) := by
      rw [operation, hnone]
    rw [Expr.schedule_foreign hforeign]
    exact run_of_leaf hop
  | case4 function hrandom =>
    have htakes : Expr.takes function 0 = true := Expr.takes_iff.2 ⟨.random, hrandom, rfl⟩
    rw [Expr.schedule_call htakes]
    exact run_of_draw (by rw [operation, hrandom]; rfl)
  | case5 function f argument hreal ih =>
    have htakes : Expr.takes function 1 = true := Expr.takes_iff.2 ⟨.real f, hreal, rfl⟩
    have hop : operation (meaning? (vars.zip inputs)) (.call function [argument]) =
        .unary (Term.applyFunction f) := by
      rw [operation, hreal]
      rfl
    rw [Expr.schedule_call htakes, List.flatMap_singleton, List.append_assoc, ih, Term.eval]
    rcases Term.eval _ (Term.resolve vars argument) s with ⟨cause | x, s'⟩
    · rfl
    · exact run_of_unary hop x
  | case6 function b arguments hempty hone hb =>
    -- the arity would have been one of the two that are resolved
    have harity : b.arity ≠ arguments.length := by
      intro harity
      cases b with
      | random => exact hempty (List.length_eq_zero_iff.1 harity.symm) rfl
      | real f =>
        obtain ⟨argument, rfl⟩ := List.length_eq_one_iff.1 harity.symm
        exact hone f argument rfl rfl
    have hforeign : Expr.takes function arguments.length = false := by
      rw [Expr.takes, hb]
      exact beq_false_of_ne harity
    have hop : operation (meaning? (vars.zip inputs)) (.call function arguments) =
        .leaf (.error (.wrongArity b arguments.length)) := by
      rw [operation, hb]
      exact if_neg harity
    rw [Expr.schedule_foreign hforeign]
    exact run_of_leaf hop
  | case7 operand ih =>
    -- a plus sign finds a value that has been checked, and checks it again
    rw [Expr.schedule_signed, List.append_assoc, ih]
    rcases hoperand : Term.eval _ (Term.resolve vars operand) s with ⟨cause | x, s'⟩
    · rfl
    · have hchecked := checkFinite_of_isFinite (Term.eval_isFinite (congrArg Prod.fst hoperand))
      have hop : operation (meaning? (vars.zip inputs)) (.signed .plus operand) =
          .unary fun x => .ok x := rfl
      refine (run_of_unary hop x).trans ?_
      exact congrArg (fun r => resume _ rest stack (r, s')) hchecked
  | case8 operand ih =>
    rw [Expr.schedule_signed, List.append_assoc, ih, Term.eval]
    have hop : operation (meaning? (vars.zip inputs)) (.signed .minus operand) =
        .unary fun x => .ok (-x) := rfl
    rcases Term.eval _ (Term.resolve vars operand) s with ⟨cause | x, s'⟩
    · rfl
    · exact run_of_unary hop x
  | case9 op left right ihleft ihright =>
    rw [Expr.schedule_binary, List.append_assoc, List.append_assoc, ihleft, Term.eval]
    rcases Term.eval _ (Term.resolve vars left) s with ⟨cause | a, s'⟩
    · rfl
    · -- the right operand runs with the value of the left one on the stack
      rw [resume, ihright]
      dsimp only
      have hop : operation (meaning? (vars.zip inputs)) (.binary op left right) =
          .binary (Term.applyOp op) := rfl
      rcases Term.eval _ (Term.resolve vars right) s' with ⟨cause | b, s''⟩
      · rfl
      · exact run_of_binary hop a b

/-! ## What runs keep -/

theorem drawCount_operation (env : String → Option Float) (node : Expr) :
    (operation env node).drawCount = if node.draws then 1 else 0 := by
  cases hdraws : node.draws with
  | true =>
    obtain ⟨function, rfl, hrandom⟩ := Expr.draws_iff.1 hdraws
    rw [operation, hrandom]
    rfl
  | false =>
    cases node with
    | call function arguments =>
      rw [operation]
      split
      · rfl
      · next b hb =>
        split
        · next harity =>
          cases b with
          | random =>
            obtain rfl := List.length_eq_zero_iff.1 harity.symm
            rw [Expr.draws_iff.2 ⟨function, rfl, hb⟩] at hdraws
            cases hdraws
          | real f => rfl
        · rfl
    | name word =>
      rw [operation]
      split <;> rfl
    | signed sign operand => cases sign <;> rfl
    | number | binary => rfl

theorem give_eq_ok {r : Except EvalError Float} (h : m.give r = .ok (x, m')) : m' = m := by
  cases r with
  | error cause => cases h
  | ok y => exact (Prod.mk.inj (Except.ok.inj h)).2.symm

/-- What a computation leaves of a machine: part of the stack, and the stream behind its draw. -/
theorem compute_eq_ok {op : Operation} (h : compute op m = .ok (x, m')) :
    m'.stack <:+ m.stack ∧ m'.stream = m.stream.afterUnits op.drawCount := by
  unfold compute at h
  split at h
  · obtain rfl := give_eq_ok h
    exact ⟨List.suffix_rfl, rfl⟩
  · obtain ⟨-, rfl⟩ := Prod.mk.inj (Except.ok.inj h)
    exact ⟨List.suffix_rfl, rfl⟩
  · obtain rfl := give_eq_ok h
    exact ⟨List.suffix_cons .., rfl⟩
  · obtain rfl := give_eq_ok h
    exact ⟨(List.suffix_cons ..).trans (List.suffix_cons ..), rfl⟩
  · cases h

/-- What one node does to a machine, if it succeeds. -/
theorem execute_eq_ok (h : execute env node m = .ok m') :
    ∃ x rest, x.isFinite = true ∧ rest <:+ m.stack ∧
      m' = ⟨x :: rest, m.stream.afterUnits (if node.draws then 1 else 0)⟩ := by
  rw [execute] at h
  split at h
  · next x left hcompute =>
    obtain ⟨hstack, hstream⟩ := compute_eq_ok hcompute
    cases hfinite : x.isFinite with
    | false =>
      rw [push_of_not_isFinite hfinite] at h
      cases h
    | true =>
      rw [push_of_isFinite hfinite] at h
      rw [drawCount_operation] at hstream
      exact ⟨x, left.stack, hfinite, hstack, by rw [← hstream, ← Except.ok.inj h]⟩
  · cases h

/-- A run takes one number from the stream for every node that draws, and nothing else. -/
theorem run_stream (h : run env nodes m = .finished m') :
    m'.stream = m.stream.afterUnits (nodes.countP Expr.draws) := by
  induction nodes generalizing m with
  | nil =>
    obtain rfl := Ending.finished.inj h
    rfl
  | cons node nodes ih =>
    obtain ⟨next, hnode, hrest⟩ := run_cons_finished.1 h
    obtain ⟨x, rest, -, -, rfl⟩ := execute_eq_ok hnode
    rw [ih hrest, ← Random.Stream.afterUnits_add, List.countP_cons, Nat.add_comm]

/-- Nothing on the stack is infinite or not a number. -/
theorem run_isFinite (h : run env nodes m = .finished m')
    (hm : ∀ x ∈ m.stack, x.isFinite = true) : ∀ x ∈ m'.stack, x.isFinite = true := by
  induction nodes generalizing m with
  | nil =>
    obtain rfl := Ending.finished.inj h
    exact hm
  | cons node nodes ih =>
    obtain ⟨next, hnode, hrest⟩ := run_cons_finished.1 h
    obtain ⟨x, rest, hfinite, hsuffix, rfl⟩ := execute_eq_ok hnode
    -- the new value is finite, and the others were there before
    exact ih hrest (List.forall_mem_cons.2 ⟨hfinite, fun y hy => hm y (hsuffix.subset hy)⟩)

/-! ## Answers of runs -/

/-- An answer, and the stream that is left with it, comes out of a strict run over the nodes of an
expression, on an empty stack and with the stream `s`. -/
structure RunsStrictly (env : String → Option Float) (e : Expr) (s : Random.Stream)
    (answer : Except EvalError Float) (left : Random.Stream) : Prop where
  /-- A value is alone on the stack when all nodes have been executed. -/
  value : ∀ x, answer = .ok x →
    run env e.schedule ⟨[], s⟩ = .finished ⟨[x], left⟩ ∧
      left = s.afterUnits (e.schedule.countP Expr.draws)
  /-- An error is the one of the first node that fails, and only the draws before it were made. -/
  failure : ∀ cause, answer = .error cause → ∃ executed node rest m,
    e.schedule = executed ++ node :: rest ∧ run env executed ⟨[], s⟩ = .finished m ∧
      execute env node m = .error (.failure cause) ∧ left = m.stream ∧
      left = s.afterUnits (executed.countP Expr.draws)
  /-- Whatever has been put on the stack is finite. -/
  finite : ∀ executed rest m, e.schedule = executed ++ rest →
    run env executed ⟨[], s⟩ = .finished m → ∀ x ∈ m.stack, x.isFinite = true
  /-- A node that comes to anything else fails there and then. -/
  overflow : ∀ executed node rest m x m', e.schedule = executed ++ node :: rest →
    run env executed ⟨[], s⟩ = .finished m → compute (operation env node) m = .ok (x, m') →
    x.isFinite = false →
      answer = .error (if x.isNaN then .nonReal else .nonFinite) ∧ left = m.stream

theorem runsStrictly_of_run {e : Expr} {answer : Except EvalError Float} {left : Random.Stream}
    (h : run env e.schedule ⟨[], s⟩ = resume env [] [] (answer, left)) :
    RunsStrictly env e s answer left where
  value x hx := by
    subst hx
    exact ⟨h, run_stream h⟩
  failure cause hcause := by
    subst hcause
    obtain ⟨executed, node, rest, m, hnodes, hrun, hstop, rfl⟩ := exists_of_run_stopped h
    exact ⟨executed, node, rest, m, hnodes, hrun, hstop, rfl, run_stream hrun⟩
  finite executed rest m _ hrun := run_isFinite hrun nofun
  overflow executed node rest m x m' hnodes hrun hcompute hx := by
    have hnode : execute env node m =
        .error (.failure (if x.isNaN then .nonReal else .nonFinite)) := by
      rw [execute, hcompute]
      exact push_of_not_isFinite hx m'
    rw [hnodes, run_append hrun, run_cons_error hnode] at h
    cases answer with
    | ok y => cases h
    | error cause =>
      obtain ⟨hstop, hstream⟩ := Ending.stopped.inj h
      exact ⟨congrArg _ (Stop.failure.inj hstop).symm, hstream.symm⟩

end Machine

/-! ## Calling formulas -/

namespace Formula

variable {f : Formula} {text source : String} {vars : List String} {inputs : List Float}
  {stream : Random.Stream}

/-- A call with the right number of inputs evaluates the body and keeps all but the stream. -/
theorem call_eq {body : Term vars.length} {s : Random.Stream}
    (h : inputs.length = vars.length) :
    call ⟨source, vars, body, s⟩ inputs =
      ((body.eval (fun slot => inputs.get (slot.cast h.symm)) s).1,
        ⟨source, vars, body, (body.eval (fun slot => inputs.get (slot.cast h.symm)) s).2⟩) := by
  rw [call, dif_pos h]

theorem call_of_length_ne (h : inputs.length ≠ f.vars.length) :
    f.call inputs = (.error (.inputCount f.vars.length inputs.length), f) := by
  rw [call, dif_neg h]

/-- The answer of a formula that is made of an expression is that of a run over its nodes. -/
theorem run_of_call (h : inputs.length = vars.length) (e : Expr) (s : Random.Stream) :
    Machine.run (meaning? (vars.zip inputs)) e.schedule ⟨[], s⟩ =
      Machine.resume (meaning? (vars.zip inputs)) [] []
        ((call ⟨source, vars, Term.resolve vars e, s⟩ inputs).1,
          (call ⟨source, vars, Term.resolve vars e, s⟩ inputs).2.stream) := by
  have hrun := Machine.run_schedule h e [] [] s
  rw [List.append_nil] at hrun
  rw [hrun, call_eq h]

/-- What a call counts for in a sweep. -/
inductive Sample where
  | value (x : Float)
  /-- A value that is infinite or not a number, which counts as a failure. -/
  | unusable (x : Float)
  | failed (cause : EvalError)

/-- One call, as a sweep judges it. -/
def sample (f : Formula) (inputs : List Float) : Sample :=
  match (f.call inputs).1 with
  | .ok x => if x.isFinite then .value x else .unusable x
  | .error cause => .failed cause

/-- A sweep may take every answer as it is. -/
theorem sample_eq (f : Formula) (inputs : List Float) :
    f.sample inputs =
      match (f.call inputs).1 with
      | .ok x => .value x
      | .error cause => .failed cause := by
  rw [sample]
  cases hcall : (f.call inputs).1 with
  | ok x => exact if_pos (call_isFinite hcall)
  | error cause => rfl

theorem sample_ne_unusable (f : Formula) (inputs : List Float) (x : Float) :
    f.sample inputs ≠ .unusable x := by
  rw [sample_eq]
  cases (f.call inputs).1 <;> nofun

/-- **Evaluation is a strict run from left to right.** A compiled formula that is called with as
many inputs as it has variables answers with what a run over the nodes of its expression comes to,
at any state of its stream. In a sweep no value is ever unusable. -/
theorem call_runsStrictly (h : compile text vars stream = .ok f)
    (hlength : inputs.length = vars.length) (s : Random.Stream) :
    ∃ e, Expr.ofText text = .ok e ∧
      Machine.RunsStrictly (meaning? (vars.zip inputs)) e s ((f.at s).call inputs).1
        ((f.at s).call inputs).2.stream ∧
      ∀ x, (f.at s).sample inputs ≠ .unusable x := by
  obtain ⟨-, e, hof, rfl⟩ := compile_eq_ok_iff.1 h
  exact ⟨e, hof, Machine.runsStrictly_of_run (run_of_call hlength e s), sample_ne_unusable _ inputs⟩

/-- At a pole the call fails behind the draw on its left and before the one on its right. -/
theorem call_runsStrictly_pole :
    ∃ f e, compile "random() + 1 / x + random()" ["x"] (.ofSeed 1 1) = .ok f ∧
      Expr.ofText "random() + 1 / x + random()" = .ok e ∧
      Machine.RunsStrictly (meaning? [("x", 0.0)]) e (.ofSeed 2 1)
        ((f.at (.ofSeed 2 1)).call [0.0]).1 ((f.at (.ofSeed 2 1)).call [0.0]).2.stream ∧
      ((f.at (.ofSeed 2 1)).call [0.0]).2.stream = (Random.Stream.ofSeed 2 1).afterUnits 1 := by
  have hdrawn : (compile "random() + 1 / x + random()" ["x"] (.ofSeed 1 1)).toOption.any fun f =>
      decide (((f.at (.ofSeed 2 1)).call [0.0]).2.stream =
        (Random.Stream.ofSeed 2 1).afterUnits 1) := by decide +kernel
  obtain ⟨f, h, hdrawn⟩ := exists_of_any hdrawn
  have hlength : [(0.0 : Float)].length = ["x"].length := rfl
  obtain ⟨e, hof, hruns, -⟩ := call_runsStrictly h hlength (.ofSeed 2 1)
  exact ⟨f, e, h, hof, hruns, of_decide_eq_true hdrawn⟩

/-- The answer of a call as a sweep judges it. A value that is unusable is a failure of some kind. -/
def Sample.answer (unusable : Float → EvalError) : Sample → Except EvalError Float
  | .value x => .ok x
  | .unusable x => .error (unusable x)
  | .failed cause => .error cause

/-- Whatever unusable values are taken for, the answer is that of the call. -/
theorem sample_answer (f : Formula) (unusable : Float → EvalError) (inputs : List Float) :
    (f.sample inputs).answer unusable = (f.call inputs).1 := by
  rw [sample_eq]
  cases (f.call inputs).1 with
  | ok x => rfl
  | error cause => rfl

end Formula

/-! ## Sweeps that look at every value -/

namespace Curve

/-- One more step of a sweep that looks at both values before it takes them. -/
def Sweep.checked (unusable : Float → EvalError) (s : Sweep) (inputs : List Float) : Sweep where
  first := (s.first.call inputs).2
  second := (s.second.call inputs).2
  reversed :=
    ⟨inputs, (s.first.sample inputs).answer unusable, (s.second.sample inputs).answer unusable⟩ ::
      s.reversed

theorem Sweep.checked_eq_next (unusable : Float → EvalError) :
    Sweep.checked unusable = Sweep.next := by
  funext s inputs
  rw [Sweep.checked, Formula.sample_answer, Formula.sample_answer]
  rfl

/-- **A sweep that looks at every value comes to the same outcomes**, whatever it takes those for
that it cannot use. -/
theorem outcomes_eq_checked (unusable : Float → EvalError) (first second : Formula)
    (inputs : List (List Float)) :
    outcomes first second inputs =
      (inputs.foldl (Sweep.checked unusable) ⟨first, second, []⟩).reversed.reverse := by
  rw [Sweep.checked_eq_next]
  rfl

end Curve

end CurveArt
