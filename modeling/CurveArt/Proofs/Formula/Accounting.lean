import CurveArt.Proofs.Formula.PostOrder

/-!
# How many numbers a formula draws

Only a call to `random` without arguments draws. A call of a formula that has a value has executed
every node of its expression, so it has drawn exactly as many numbers as there are such calls; one
that fails has made some of the draws and no others. Which value or error it is depends on nothing
of the stream but the numbers of these draws.

Main results:

* `Expr.schedule_eq_nodes`: within the vocabulary no node is passed over.
* `Machine.verdict_run`: what a run comes to is decided by the numbers that it draws.
* `Formula.call_draws`: the account of all draws of a compiled formula.
-/

namespace CurveArt

/-! ## Counting draws on a stream -/

namespace Random.Stream

/-- A draw takes two words. -/
theorem position_afterUnits (s : Stream) (n : Nat) :
    (s.afterUnits n).position = s.position + 2 * n := by
  induction n with
  | zero => rfl
  | succ n ih =>
    show (s.afterUnits n).position + 2 = s.position + 2 * (n + 1)
    rw [ih]
    omega

/-- How often a stream has been drawn from can be seen from where it is. -/
theorem afterUnits_injective (s : Stream) {m n : Nat} (h : s.afterUnits m = s.afterUnits n) :
    m = n := by
  have hposition := congrArg position h
  rw [position_afterUnits, position_afterUnits] at hposition
  omega

/-- The next `n` draws from two streams give the same numbers. -/
def AgreeFor (n : Nat) (s s' : Stream) : Prop :=
  ∀ i < n, (s.afterUnits i).unit.1 = (s'.afterUnits i).unit.1

variable {s s' : Stream} {m n : Nat}

theorem AgreeFor.mono (h : AgreeFor n s s') (hle : m ≤ n) : AgreeFor m s s' :=
  fun i hi => h i (Nat.lt_of_lt_of_le hi hle)

/-- Streams that agree go on to agree behind their first draws. -/
theorem AgreeFor.after (h : AgreeFor (m + n) s s') :
    AgreeFor n (s.afterUnits m) (s'.afterUnits m) := by
  intro i hi
  have hdraw := h (m + i) (by omega)
  rwa [afterUnits_add, afterUnits_add] at hdraw

end Random.Stream

/-! ## Counting calls in an expression -/

namespace Expr

/-- All nodes of an expression. -/
def nodes (e : Expr) : List Expr :=
  e.postOrder fun _ _ => true

/-- How many calls to `random` without arguments stand in an expression. -/
def drawCalls (e : Expr) : Nat :=
  e.nodes.countP draws

mutual

/-- Passing arguments over leaves nodes out, and changes nothing of the others. -/
theorem postOrder_sublist (enters : String → Nat → Bool) :
    (e : Expr) → (e.postOrder enters).Sublist e.nodes
  | .number _ | .name _ => .refl _
  | .call function arguments => by
    have hnodes : (call function arguments).nodes =
        postOrders (fun _ _ => true) arguments ++ [call function arguments] := by
      rw [nodes, postOrder, if_pos rfl]
    rw [hnodes, postOrder]
    split
    · exact (postOrders_sublist enters arguments).append_right _
    · exact List.sublist_append_right _ _
  | .signed _ operand => (postOrder_sublist enters operand).append_right _
  | .binary _ left right =>
    (postOrder_sublist enters left).append ((postOrder_sublist enters right).append_right _)

theorem postOrders_sublist (enters : String → Nat → Bool) :
    (es : List Expr) → (postOrders enters es).Sublist (postOrders (fun _ _ => true) es)
  | [] => .slnil
  | e :: rest => (postOrder_sublist enters e).append (postOrders_sublist enters rest)

end

mutual

/-- Within the vocabulary no node is passed over. -/
theorem schedule_eq_nodes {vars : List String} :
    (e : Expr) → e.InVocabulary vars → e.schedule = e.nodes
  | .number _, _ | .name _, _ => rfl
  | .call function arguments, h => by
    obtain ⟨⟨b, hname, harity⟩, harguments⟩ := inVocabulary_iff.1 h
    have htakes : takes function arguments.length = true :=
      takes_iff.2 ⟨b, Builtin.ofName?_unqualified.2 hname, harity.symm⟩
    rw [schedule, nodes, postOrder, postOrder, if_pos htakes, if_pos rfl,
      schedules_eq_nodes arguments harguments]
  | .signed sign operand, h => by
    have hoperand := schedule_eq_nodes operand
      ((inVocabulary_iff.1 h).2 operand (List.mem_singleton_self operand))
    exact congrArg (· ++ [signed sign operand]) hoperand
  | .binary op left right, h => by
    obtain ⟨-, hoperands⟩ := inVocabulary_iff.1 h
    have hleft := schedule_eq_nodes left (hoperands left (List.mem_cons_self ..))
    have hright := schedule_eq_nodes right
      (hoperands right (List.mem_cons_of_mem _ (List.mem_singleton_self right)))
    rw [schedule_binary, hleft, hright]
    rfl

theorem schedules_eq_nodes {vars : List String} :
    (es : List Expr) → (∀ e ∈ es, e.InVocabulary vars) →
      postOrders takes es = postOrders (fun _ _ => true) es
  | [], _ => rfl
  | e :: rest, h => by
    obtain ⟨he, hrest⟩ := List.forall_mem_cons.1 h
    have hfirst : e.postOrder takes = e.postOrder fun _ _ => true := schedule_eq_nodes e he
    rw [postOrders, postOrders, hfirst, schedules_eq_nodes rest hrest]

end

theorem countP_schedule_le (e : Expr) : e.schedule.countP draws ≤ e.drawCalls :=
  (postOrder_sublist takes e).countP_le

end Expr

/-! ## Runs from two streams -/

namespace Machine

open Random.Stream (AgreeFor)

variable {env : String → Option Float} {nodes : List Expr} {node : Expr} {stack : List Float}
  {s s' : Random.Stream}

/-- What a run comes to, without the stream. -/
def Ending.verdict : Ending → Except Stop (List Float)
  | .finished m => .ok m.stack
  | .stopped stop _ => .error stop

/-- What is given does not depend on the stream. -/
theorem give_agree (stack : List Float) (value : Except EvalError Float) :
    ∃ r : Except Stop (Float × List Float),
      ∀ s, give ⟨stack, s⟩ value = r.map fun p => (p.1, ⟨p.2, s⟩) := by
  cases value with
  | error cause => exact ⟨.error (.failure cause), fun _ => rfl⟩
  | ok x => exact ⟨.ok (x, stack), fun _ => rfl⟩

/-- A computation is decided by the stack and the number that it draws. -/
theorem compute_agree (op : Operation) (stack : List Float) (h : AgreeFor op.drawCount s s') :
    ∃ r : Except Stop (Float × List Float),
      compute op ⟨stack, s⟩ = r.map (fun p => (p.1, ⟨p.2, s.afterUnits op.drawCount⟩)) ∧
        compute op ⟨stack, s'⟩ = r.map fun p => (p.1, ⟨p.2, s'.afterUnits op.drawCount⟩) := by
  cases op with
  | leaf value =>
    obtain ⟨r, hr⟩ := give_agree stack value
    exact ⟨r, hr s, hr s'⟩
  | draw =>
    have hdraw : s.unit.1 = s'.unit.1 := h 0 Nat.one_pos
    refine ⟨.ok (s.unit.1, stack), rfl, ?_⟩
    rw [hdraw]
    rfl
  | unary f =>
    cases stack with
    | nil => exact ⟨.error .starved, rfl, rfl⟩
    | cons x stack =>
      obtain ⟨r, hr⟩ := give_agree stack (f x)
      exact ⟨r, hr s, hr s'⟩
  | binary f =>
    match stack with
    | [] | [_] => exact ⟨.error .starved, rfl, rfl⟩
    | b :: a :: stack =>
      obtain ⟨r, hr⟩ := give_agree stack (f a b)
      exact ⟨r, hr s, hr s'⟩

/-- So is one node. -/
theorem execute_agree (stack : List Float)
    (h : AgreeFor (if node.draws then 1 else 0) s s') :
    ∃ r : Except Stop (List Float),
      execute env node ⟨stack, s⟩ =
          r.map (fun l => ⟨l, s.afterUnits (if node.draws then 1 else 0)⟩) ∧
        execute env node ⟨stack, s'⟩ =
          r.map fun l => ⟨l, s'.afterUnits (if node.draws then 1 else 0)⟩ := by
  rw [← drawCount_operation env node] at h ⊢
  obtain ⟨r, hr, hr'⟩ := compute_agree _ stack h
  rw [execute, execute, hr, hr']
  cases r with
  | error stop => exact ⟨.error stop, rfl, rfl⟩
  | ok p =>
    obtain ⟨x, rest⟩ := p
    cases hfinite : x.isFinite with
    | true =>
      exact ⟨.ok (x :: rest), push_of_isFinite hfinite _, push_of_isFinite hfinite _⟩
    | false =>
      exact ⟨.error (.failure (if x.isNaN then .nonReal else .nonFinite)),
        push_of_not_isFinite hfinite _, push_of_not_isFinite hfinite _⟩

/-- **A run is decided by the numbers that it draws**: two streams that give the same ones lead to
the same end. -/
theorem verdict_run (stack : List Float) (h : AgreeFor (nodes.countP Expr.draws) s s') :
    (run env nodes ⟨stack, s⟩).verdict = (run env nodes ⟨stack, s'⟩).verdict := by
  induction nodes generalizing stack s s' with
  | nil => rfl
  | cons node nodes ih =>
    rw [List.countP_cons, Nat.add_comm] at h
    obtain ⟨r, hr, hr'⟩ := @execute_agree env node s s' stack (h.mono (Nat.le_add_right _ _))
    cases r with
    | error stop =>
      rw [run_cons_error hr, run_cons_error hr']
      rfl
    | ok rest =>
      rw [run_cons_ok hr, run_cons_ok hr']
      exact ih rest h.after

theorem answer_of_verdict {answer answer' : Except EvalError Float} {left left' : Random.Stream}
    (h : (resume env [] [] (answer, left)).verdict = (resume env [] [] (answer', left')).verdict) :
    answer = answer' := by
  cases answer with
  | error cause =>
    cases answer' with
    | error cause' => exact congrArg _ (Stop.failure.inj (Except.error.inj h))
    | ok x' => cases h
  | ok x =>
    cases answer' with
    | error cause' => cases h
    | ok x' => exact congrArg _ (List.singleton_inj.1 (Except.ok.inj h))

end Machine

/-! ## Places that do not draw -/

/-- The stream that is left when expressions have been evaluated one after the other. -/
def Term.streamBehind {vars : List String} (inputs : Fin vars.length → Float) (es : List Expr)
    (s : Random.Stream) : Random.Stream :=
  es.foldl (fun s e => ((resolve vars e).eval inputs s).2) s

/-- An expression that is no draw itself takes nothing from the stream but what its operands take,
as far as these are evaluated. -/
theorem Term.eval_stream {vars : List String} {e : Expr} (h : e.draws = false)
    (inputs : Fin vars.length → Float) (s : Random.Stream) :
    ∃ reached, reached <+: e.operands ∧
      ((resolve vars e).eval inputs s).2 = streamBehind inputs reached s := by
  cases e with
  | number value => exact ⟨[], List.nil_prefix, rfl⟩
  | name word =>
    refine ⟨[], List.nil_prefix, ?_⟩
    rw [resolve_name, ofName]
    split
    · rfl
    · split <;> rfl
  | call function arguments =>
    unfold resolve
    split
    · exact ⟨[], List.nil_prefix, rfl⟩
    · next hrandom =>
      rw [Expr.draws_iff.2 ⟨function, rfl, hrandom⟩] at h
      cases h
    · next f argument hreal =>
      refine ⟨[argument], List.prefix_rfl, ?_⟩
      rw [eval, streamBehind, List.foldl_cons, List.foldl_nil]
      rcases eval inputs (resolve vars argument) s with ⟨cause | x, s'⟩ <;> rfl
    · exact ⟨[], List.nil_prefix, rfl⟩
  | signed sign operand =>
    refine ⟨[operand], List.prefix_rfl, ?_⟩
    cases sign with
    | plus => rfl
    | minus =>
      rw [resolve_minus, eval, streamBehind, List.foldl_cons, List.foldl_nil]
      rcases eval inputs (resolve vars operand) s with ⟨cause | x, s'⟩ <;> rfl
  | binary op left right =>
    rw [resolve_binary, eval]
    rcases hleft : eval inputs (resolve vars left) s with ⟨cause | a, s'⟩
    · -- the right operand is not reached
      refine ⟨[left], List.prefix_append [left] [right], ?_⟩
      rw [streamBehind, List.foldl_cons, List.foldl_nil, hleft]
    · refine ⟨[left, right], List.prefix_rfl, ?_⟩
      rw [streamBehind, List.foldl_cons, List.foldl_cons, List.foldl_nil, hleft]
      dsimp only
      rcases eval inputs (resolve vars right) s' with ⟨cause | b, s''⟩ <;> rfl

/-! ## The account of a formula -/

namespace Formula

variable {f : Formula} {text : String} {vars : List String} {stream : Random.Stream}

/-- What a formula that is compiled from the expression `e` draws. -/
structure DrawsFor (f : Formula) (vars : List String) (e : Expr) : Prop where
  /-- With a value, every call to `random` has drawn once. -/
  value : ∀ s inputs x, ((f.at s).call inputs).1 = .ok x →
    ((f.at s).call inputs).2 = f.at (s.afterUnits e.drawCalls)
  failure : ∀ s inputs cause, ((f.at s).call inputs).1 = .error cause →
    ∃ n ≤ e.drawCalls, ((f.at s).call inputs).2 = f.at (s.afterUnits n)
  mismatch : ∀ s inputs, inputs.length ≠ vars.length → ((f.at s).call inputs).2 = f.at s
  /-- Nothing of a stream matters but the numbers that are drawn. -/
  decided : ∀ s s' inputs, Random.Stream.AgreeFor e.drawCalls s s' →
    ((f.at s).call inputs).1 = ((f.at s').call inputs).1
  drawless : e.drawCalls = 0 → ∀ s s' inputs,
    (f.at s').call inputs = (((f.at s).call inputs).1, f.at s')
  /-- No place of the expression draws by itself but the calls that are counted. -/
  elsewhere : ∀ part, part.Occurs e → part.draws = false → ∀ inputs s,
    ∃ reached, reached <+: part.operands ∧
      ((Term.resolve vars part).eval inputs s).2 = Term.streamBehind inputs reached s
  /-- A stream that has been drawn from more often is another one. -/
  counted : ∀ (s : Random.Stream) m n, s.afterUnits m = s.afterUnits n → m = n

/-- The formula that a call leaves differs in its stream only. -/
theorem call_snd_eq (f : Formula) (inputs : List Float) :
    (f.call inputs).2 = f.at (f.call inputs).2.stream := by
  obtain ⟨left, hleft⟩ := f.call_snd inputs
  rw [hleft]
  rfl

section Resolved

variable {source : String}

/-- The draws of a call, read off the run over its nodes. -/
theorem exists_draws (e : Expr) (inputs : List Float) (s : Random.Stream) :
    ∃ n ≤ e.drawCalls,
      (call ⟨source, vars, Term.resolve vars e, s⟩ inputs).2 =
        ⟨source, vars, Term.resolve vars e, s.afterUnits n⟩ ∧
      ∀ x, (call ⟨source, vars, Term.resolve vars e, s⟩ inputs).1 = .ok x → n = e.drawCalls := by
  by_cases hlength : inputs.length = vars.length
  · have hruns := Machine.runsStrictly_of_run (@run_of_call source vars inputs hlength e s)
    rw [call_snd_eq]
    cases hanswer : (call ⟨source, vars, Term.resolve vars e, s⟩ inputs).1 with
    | ok x =>
      obtain ⟨-, hstream⟩ := hruns.value x hanswer
      -- a value closes the body, so no node was passed over
      have hin : e.InVocabulary vars := Term.resolve_closed_iff.1 (closed_of_call hanswer)
      rw [e.schedule_eq_nodes hin] at hstream
      exact ⟨e.drawCalls, Nat.le_refl _, by rw [hstream]; rfl, fun _ _ => rfl⟩
    | error cause =>
      obtain ⟨executed, node, rest, m, hnodes, -, -, -, hstream⟩ := hruns.failure cause hanswer
      refine ⟨executed.countP Expr.draws, ?_, by rw [hstream]; rfl, nofun⟩
      refine Nat.le_trans ?_ e.countP_schedule_le
      rw [hnodes, List.countP_append]
      exact Nat.le_add_right _ _
  · rw [call_of_length_ne hlength]
    exact ⟨0, Nat.zero_le _, rfl, nofun⟩

/-- Two states of the stream that give the same numbers lead to the same answer. -/
theorem call_fst_agree (e : Expr) (inputs : List Float) {s s' : Random.Stream}
    (h : Random.Stream.AgreeFor e.drawCalls s s') :
    (call ⟨source, vars, Term.resolve vars e, s⟩ inputs).1 =
      (call ⟨source, vars, Term.resolve vars e, s'⟩ inputs).1 := by
  by_cases hlength : inputs.length = vars.length
  · have hrun := @run_of_call source vars inputs hlength e s
    have hrun' := @run_of_call source vars inputs hlength e s'
    have hverdict := @Machine.verdict_run (meaning? (vars.zip inputs)) e.schedule s s' []
      (h.mono e.countP_schedule_le)
    rw [hrun, hrun'] at hverdict
    exact Machine.answer_of_verdict hverdict
  · rw [call_of_length_ne hlength, call_of_length_ne hlength]

end Resolved

/-- **The account of all draws.** A compiled formula draws once for every call to `random` without
arguments where it has a value, at most so often where it has none, and never with a wrong number
of inputs; without such a call it neither moves its stream nor depends on it. -/
theorem call_draws (h : compile text vars stream = .ok f) :
    ∃ e, Expr.ofText text = .ok e ∧ f.DrawsFor vars e := by
  obtain ⟨-, e, hof, rfl⟩ := compile_eq_ok_iff.1 h
  refine ⟨e, hof, ?_⟩
  constructor
  case value =>
    intro s inputs x hx
    obtain ⟨n, -, hleft, hall⟩ := @exists_draws vars (Text.trimmed text) e inputs s
    exact hleft.trans (by rw [hall x hx]; rfl)
  case failure =>
    intro s inputs cause _
    obtain ⟨n, hn, hleft, -⟩ := @exists_draws vars (Text.trimmed text) e inputs s
    exact ⟨n, hn, hleft⟩
  case mismatch =>
    intro s inputs hlength
    exact congrArg Prod.snd (call_of_length_ne hlength)
  case decided => exact fun s s' inputs => call_fst_agree e inputs
  case drawless =>
    intro hzero s s' inputs
    obtain ⟨n, hn, hleft, -⟩ := @exists_draws vars (Text.trimmed text) e inputs s'
    obtain rfl : n = 0 := by omega
    have hagree : Random.Stream.AgreeFor e.drawCalls s' s := by
      rw [hzero]
      nofun
    exact Prod.ext (call_fst_agree e inputs hagree) hleft
  case elsewhere => exact fun part _ hdraws => Term.eval_stream hdraws
  case counted => exact fun s m n => s.afterUnits_injective

/-- Calls to `random` below calls that fail count among the draws, and are never made. -/
theorem call_draws_passed_over :
    ∃ f e, compile "random() + sin(random(), x) + random(random())" ["x"] (.ofSeed 1 1) = .ok f ∧
      Expr.ofText "random() + sin(random(), x) + random(random())" = .ok e ∧ e.drawCalls = 3 ∧
      f.DrawsFor ["x"] e ∧
      ((f.at (.ofSeed 2 1)).call [0.5]).2 = f.at ((Random.Stream.ofSeed 2 1).afterUnits 1) := by
  have hcount : (Expr.ofText "random() + sin(random(), x) + random(random())").toOption.all
      fun e => decide (e.drawCalls = 3) := by decide +kernel
  have hdrawn : (compile "random() + sin(random(), x) + random(random())" ["x"]
      (.ofSeed 1 1)).toOption.any fun f =>
        decide (((f.at (.ofSeed 2 1)).call [0.5]).2.stream =
          (Random.Stream.ofSeed 2 1).afterUnits 1) := by decide +kernel
  obtain ⟨f, h, hdrawn⟩ := exists_of_any hdrawn
  obtain ⟨e, hof, hdraws⟩ := call_draws h
  rw [hof] at hcount
  refine ⟨f, e, h, hof, of_decide_eq_true hcount, hdraws, ?_⟩
  rw [call_snd_eq, show ((f.at (.ofSeed 2 1)).call [0.5]).2.stream = _ from
    of_decide_eq_true hdrawn]
  rfl

end Formula

end CurveArt
