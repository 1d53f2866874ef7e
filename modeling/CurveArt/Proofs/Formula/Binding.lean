import CurveArt.Proofs.Expr.Renaming
import CurveArt.Proofs.Formula.Declaration

/-!
# Variables are bound by name

Compiling replaces every name by the place of its variable, so the order of the variables seems to
matter. It does not, as long as the inputs come in the same order: the run over the nodes of an
expression sees only which name has which value. Neither does it matter what a variable is called,
as long as the expression calls it so too. Names of functions are something else: a call is never
one of a variable, and stays an unknown function whatever the variables are called.

Main results:

* `meaning?_perm`, `meaning?_map`: what names mean under another order and under other names.
* `Machine.run_mapNames`: a run over renamed nodes.
* `Formula.binds_by_name`: the two freedoms of a list of variables.
-/

namespace CurveArt

/-! ## Nodes under other names -/

namespace Expr

mutual

/-- The nodes of a renamed expression are the renamed nodes. -/
theorem postOrder_mapNames (enters : String → Nat → Bool) (ρ : String → String) :
    (e : Expr) → (e.mapNames ρ).postOrder enters = (e.postOrder enters).map (mapNames ρ)
  | .number _ | .name _ => rfl
  | .call function arguments => by
    rw [mapNames, postOrder, postOrder, postOrders_mapNames enters ρ arguments, mapAllNames_eq,
      List.length_map]
    split
    · rw [List.map_append, List.map_singleton, mapNames, mapAllNames_eq]
    · rw [List.map_singleton, mapNames, mapAllNames_eq]
  | .signed sign operand => by
    rw [mapNames, postOrder, postOrder, postOrder_mapNames enters ρ operand, List.map_append]
    rfl
  | .binary op left right => by
    rw [mapNames, postOrder, postOrder, postOrder_mapNames enters ρ left,
      postOrder_mapNames enters ρ right, List.map_append, List.map_append]
    rfl

theorem postOrders_mapNames (enters : String → Nat → Bool) (ρ : String → String) :
    (es : List Expr) →
      postOrders enters (mapAllNames ρ es) = (postOrders enters es).map (mapNames ρ)
  | [] => rfl
  | e :: rest => by
    rw [mapAllNames, postOrders, postOrders, postOrder_mapNames enters ρ e,
      postOrders_mapNames enters ρ rest, List.map_append]

end

mutual

/-- Every node stands somewhere in the expression. -/
theorem occurs_of_mem_postOrder {enters : String → Nat → Bool} {node : Expr} :
    (e : Expr) → node ∈ e.postOrder enters → Occurs node e
  | .number _, h | .name _, h => by
    rw [List.mem_singleton.1 h]
    exact .here
  | .call function arguments, h => by
    rw [postOrder] at h
    split at h
    · rcases List.mem_append.1 h with h | h
      · obtain ⟨argument, hmem, hnode⟩ := exists_of_mem_postOrders arguments h
        exact .inside hmem hnode
      · rw [List.mem_singleton.1 h]
        exact .here
    · rw [List.mem_singleton.1 h]
      exact .here
  | .signed sign operand, h => by
    rcases List.mem_append.1 h with h | h
    · exact .inside (List.mem_singleton_self operand) (occurs_of_mem_postOrder operand h)
    · rw [List.mem_singleton.1 h]
      exact .here
  | .binary op left right, h => by
    rcases List.mem_append.1 h with h | h
    · exact .inside (List.mem_cons_self ..) (occurs_of_mem_postOrder left h)
    · rcases List.mem_append.1 h with h | h
      · exact .inside (List.mem_cons_of_mem _ (List.mem_singleton_self right))
          (occurs_of_mem_postOrder right h)
      · rw [List.mem_singleton.1 h]
        exact .here

theorem exists_of_mem_postOrders {enters : String → Nat → Bool} {node : Expr} :
    (es : List Expr) → node ∈ postOrders enters es → ∃ e ∈ es, Occurs node e
  | [], h => by cases h
  | e :: rest, h => by
    rcases List.mem_append.1 h with h | h
    · exact ⟨e, List.mem_cons_self .., occurs_of_mem_postOrder e h⟩
    · obtain ⟨e', hmem, hnode⟩ := exists_of_mem_postOrders rest h
      exact ⟨e', List.mem_cons_of_mem _ hmem, hnode⟩

end

end Expr

/-! ## What names mean -/

section Meaning

variable {bindings bindings' : List (String × Float)} {vars : List String} {inputs : List Float}

/-- Bindings of distinct names can be looked up in any order. -/
theorem lookup_perm (h : bindings.Perm bindings') (hnodup : (bindings.map Prod.fst).Nodup)
    (word : String) : bindings.lookup word = bindings'.lookup word := by
  induction h with
  | nil => rfl
  | cons b _ ih => rw [List.lookup_cons, List.lookup_cons, ih (List.nodup_cons.1 hnodup).2]
  | swap b b' rest =>
    have hne : b'.1 ≠ b.1 := fun heq => (List.nodup_cons.1 hnodup).1 (by simp [heq])
    rw [List.lookup_cons, List.lookup_cons, List.lookup_cons, List.lookup_cons]
    -- the word is at most one of the two names
    by_cases hword : word = b.1
    · rw [hword, BEq.rfl, beq_false_of_ne hne.symm]
    · rw [beq_false_of_ne hword]
  | trans h _ ih ih' => exact (ih hnodup).trans (ih' ((h.map Prod.fst).nodup_iff.1 hnodup))

theorem meaning?_perm (h : bindings.Perm bindings') (hnodup : (bindings.map Prod.fst).Nodup) :
    meaning? bindings = meaning? bindings' := by
  funext word
  rw [meaning?, meaning?, lookup_perm h hnodup]

/-- A name is looked up under its new name where it was under its old one, if no other variable has
got this new name. -/
theorem lookup_map {ρ : String → String} {word : String}
    (h : ∀ other ∈ vars, ρ other = ρ word → other = word) :
    ((vars.map ρ).zip inputs).lookup (ρ word) = (vars.zip inputs).lookup word := by
  induction vars generalizing inputs with
  | nil => rfl
  | cons first vars ih =>
    obtain ⟨hfirst, hrest⟩ := List.forall_mem_cons.1 h
    cases inputs with
    | nil => rfl
    | cons x inputs =>
      simp only [List.map_cons, List.zip_cons_cons, List.lookup_cons]
      rw [ih hrest]
      -- under the new names, the first variable is the one that was asked for if it was before
      by_cases hword : word = first
      · rw [hword, BEq.rfl, BEq.rfl]
      · rw [beq_false_of_ne hword, beq_false_of_ne fun heq => hword (hfirst heq.symm).symm]

theorem lookup_isSome (hlength : inputs.length = vars.length) {word : String} (h : word ∈ vars) :
    ((vars.zip inputs).lookup word).isSome := by
  rw [Machine.lookup_zip hlength, Option.isSome_map]
  exact Term.slot?_isSome.2 h

/-- Only variables may get another name. -/
theorem meaning?_map (hlength : inputs.length = vars.length) {ρ : String → String} {word : String}
    (h : ∀ other ∈ vars, ρ other = ρ word → other = word) (hword : word ∈ vars ∨ ρ word = word) :
    meaning? ((vars.map ρ).zip inputs) (ρ word) = meaning? (vars.zip inputs) word := by
  rw [meaning?, meaning?, lookup_map h]
  -- a variable is never looked up among the constants, and all other names have stayed
  rcases hword with hmem | hsame
  · rw [Option.or_of_isSome (lookup_isSome hlength hmem),
      Option.or_of_isSome (lookup_isSome hlength hmem)]
  · rw [hsame]

end Meaning

/-! ## Runs under other names -/

namespace Machine

variable {env env' : String → Option Float} {ρ : String → String} {nodes : List Expr} {node : Expr}

/-- A renamed node does the same if its new name means the same. -/
theorem operation_mapNames
    (h : ∀ word, node = .name word → env' (ρ word) = env word ∧ (env word = none → ρ word = word)) :
    operation env' (node.mapNames ρ) = operation env node := by
  cases node with
  | name word =>
    obtain ⟨hmeaning, hunknown⟩ := h word rfl
    rw [Expr.mapNames, operation, operation, hmeaning]
    cases hword : env word with
    | some value => rfl
    | none =>
      -- the error tells the name
      rw [hunknown hword]
  | call function arguments =>
    rw [Expr.mapNames, operation, operation, Expr.mapAllNames_eq, List.length_map]
  | signed sign operand => cases sign <;> rfl
  | number | binary => rfl

theorem execute_congr {node' : Expr} (h : operation env' node' = operation env node) (m : Machine) :
    execute env' node' m = execute env node m := by
  rw [execute, execute, h]

/-- **A run over renamed nodes** is the run over the nodes. -/
theorem run_mapNames
    (h : ∀ node ∈ nodes, operation env' (node.mapNames ρ) = operation env node) (m : Machine) :
    run env' (nodes.map (Expr.mapNames ρ)) m = run env nodes m := by
  induction nodes generalizing m with
  | nil => rfl
  | cons node nodes ih =>
    obtain ⟨hnode, hnodes⟩ := List.forall_mem_cons.1 h
    rw [List.map_cons, run, run, execute_congr hnode]
    cases execute env node m with
    | error stop => rfl
    | ok next => exact ih hnodes next

/-- The end of a run tells its answer and the stream that is left. -/
theorem resume_injective {answer answer' : Except EvalError Float × Random.Stream}
    (h : resume env [] [] answer = resume env' [] [] answer') : answer = answer' := by
  obtain ⟨_ | x, s⟩ := answer <;> obtain ⟨_ | x', s'⟩ := answer'
  · obtain ⟨hstop, rfl⟩ := Ending.stopped.inj h
    rw [Stop.failure.inj hstop]
  · cases h
  · cases h
  · obtain ⟨hstack, rfl⟩ := Machine.mk.inj (Ending.finished.inj h)
    rw [List.singleton_inj.1 hstack]

end Machine

/-! ## Formulas under other orders and names -/

/-- Another name for one variable. -/
def replaced (v w word : String) : String :=
  if word = v then w else word

theorem replaced_self (v w : String) : replaced v w v = w :=
  if_pos rfl

theorem replaced_of_ne {v w word : String} (h : word ≠ v) : replaced v w word = word :=
  if_neg h

namespace Formula

variable {text source source' : String} {vars vars' : List String} {inputs inputs' : List Float}
  {e e' : Expr} {s : Random.Stream} {v w function : String}

/-- Two calls give the same value or error and leave the same stream. -/
def Alike (a b : Except EvalError Float × Formula) : Prop :=
  a.1 = b.1 ∧ a.2.stream = b.2.stream

theorem alike_of_run (hlength : inputs.length = vars.length)
    (hlength' : inputs'.length = vars'.length)
    (h : Machine.run (meaning? (vars'.zip inputs')) e'.schedule ⟨[], s⟩ =
      Machine.run (meaning? (vars.zip inputs)) e.schedule ⟨[], s⟩) :
    Alike (call ⟨source', vars', Term.resolve vars' e', s⟩ inputs')
      (call ⟨source, vars, Term.resolve vars e, s⟩ inputs) := by
  rw [run_of_call hlength, run_of_call hlength'] at h
  exact Prod.mk.inj (Machine.resume_injective h)

/-- A new name that is accepted is not the one of another variable, and none that the expression
has for something else. -/
theorem eq_of_replaced_eq (hnodup : (vars.map (replaced v w)).Nodup) (hv : v ∈ vars)
    (hoccurs : ¬(Expr.name w).Occurs e) {word : String} (hword : (Expr.name word).Occurs e) :
    ∀ other ∈ vars, replaced v w other = replaced v w word → other = word := by
  intro other hother heq
  -- a variable has its new name for itself, and other names are neither `v` nor `w`
  by_cases hmem : word ∈ vars
  · exact List.inj_on_of_nodup_map hnodup hother hmem heq
  · have hne : word ≠ v := fun h => hmem (h ▸ hv)
    rw [replaced_of_ne hne] at heq
    by_cases hfirst : other = v
    · rw [hfirst, replaced_self] at heq
      exact absurd (heq ▸ hword) hoccurs
    · rwa [replaced_of_ne hfirst] at heq

/-- An expression under its new names over the renamed variables. -/
theorem alike_mapNames (hnodup : (vars.map (replaced v w)).Nodup) (hv : v ∈ vars)
    (hoccurs : ¬(Expr.name w).Occurs e) (inputs : List Float) (s : Random.Stream) :
    Alike (call ⟨source', vars.map (replaced v w),
        Term.resolve (vars.map (replaced v w)) (e.mapNames (replaced v w)), s⟩ inputs)
      (call ⟨source, vars, Term.resolve vars e, s⟩ inputs) := by
  by_cases hlength : inputs.length = vars.length
  · refine alike_of_run hlength (by rw [List.length_map, hlength]) ?_
    rw [Expr.schedule, Expr.postOrder_mapNames]
    refine Machine.run_mapNames (fun node hnode => Machine.operation_mapNames ?_) _
    rintro word rfl
    have hword := Expr.occurs_of_mem_postOrder e hnode
    have hkept : word ∉ vars → replaced v w word = word :=
      fun hmem => replaced_of_ne fun h => hmem (h ▸ hv)
    refine ⟨meaning?_map hlength (eq_of_replaced_eq hnodup hv hoccurs hword)
      (or_iff_not_imp_left.2 hkept), fun hnone => hkept fun hmem => ?_⟩
    -- a variable has a meaning
    have hsome := lookup_isSome hlength hmem
    rw [meaning?, Option.or_eq_none_iff] at hnone
    rw [hnone.1] at hsome
    cases hsome
  · rw [call_of_length_ne (by simpa using hlength), call_of_length_ne hlength, List.length_map]
    exact ⟨rfl, rfl⟩

/-- The inputs of reordered variables are bound to the same names. -/
theorem zip_perm {order : List (Fin vars.length)} (h : order.Perm (List.finRange vars.length))
    (inputs : Fin vars.length → Float) :
    ((order.map vars.get).zip (order.map inputs)).Perm (vars.zip (List.ofFn inputs)) := by
  have hbindings : vars.zip (List.ofFn inputs) =
      (List.finRange vars.length).map fun i => (vars.get i, inputs i) := by
    rw [List.ofFn_eq_map, ← List.zip_map', List.map_get_finRange]
  rw [hbindings, List.zip_map']
  exact h.map _

theorem alike_of_perm (hnodup : vars.Nodup) {order : List (Fin vars.length)}
    (h : order.Perm (List.finRange vars.length)) (e : Expr) (inputs : Fin vars.length → Float)
    (s : Random.Stream) :
    Alike (call ⟨source', order.map vars.get, Term.resolve (order.map vars.get) e, s⟩
        (order.map inputs))
      (call ⟨source, vars, Term.resolve vars e, s⟩ (List.ofFn inputs)) := by
  have hperm := zip_perm h inputs
  have hkeys : ((vars.zip (List.ofFn inputs)).map Prod.fst).Nodup := by
    rwa [List.map_fst_zip (by rw [List.length_ofFn])]
  refine alike_of_run List.length_ofFn (by rw [List.length_map, List.length_map]) ?_
  rw [← meaning?_perm hperm.symm hkeys]

/-- The name of a variable is no function. -/
theorem Referable.ofName?_eq_none (h : Referable function) :
    Builtin.ofName? (unqualified function) = none := by
  cases hname : Builtin.ofName? (unqualified function) with
  | none => rfl
  | some b =>
    rcases Builtin.ofName?_unqualified.1 hname with heq | heq
    · exact absurd heq (h.not_builtin b)
    · exact absurd (heq ▸ point_mem_qualified b.name) h.no_point

/-- Of the names of its variables, a formula depends on nothing but which of them stands for which
input. -/
structure BindsByName (text : String) (vars : List String) (e : Expr) : Prop where
  /-- The variables in another order, and with them the inputs. -/
  reordered : ∀ order : List (Fin vars.length), order.Perm (List.finRange vars.length) →
    ∀ stream, ∃ f f', compile text vars stream = .ok f ∧
      compile text (order.map vars.get) stream = .ok f' ∧
      ∀ s (inputs : Fin vars.length → Float),
        Alike ((f'.at s).call (order.map inputs)) ((f.at s).call (List.ofFn inputs))
  /-- A variable under another name, in the list and in the expression. -/
  renamed : ∀ v ∈ vars, ∀ w, badVariable? [] (vars.map (replaced v w)) = none →
    ¬(Expr.name w).Occurs e →
      (∃ text', Expr.ofText text' = .ok (e.mapNames (replaced v w))) ∧
      ∀ text', Expr.ofText text' = .ok (e.mapNames (replaced v w)) →
        ∀ stream, ∃ f f', compile text vars stream = .ok f ∧
          compile text' (vars.map (replaced v w)) stream = .ok f' ∧
          ∀ s inputs, Alike ((f'.at s).call inputs) ((f.at s).call inputs)
  /-- A call under the name of a variable, which fails where it stands whatever is declared. -/
  functions : ∀ function ∈ vars, ∀ arguments ρ vars' inputs s,
    (Term.resolve vars' (.call function arguments)).eval inputs s =
        (.error (.unknownFunction function), s) ∧
      (Term.resolve vars' ((Expr.call function arguments).mapNames ρ)).eval inputs s =
        (.error (.unknownFunction function), s)
  /-- With such a call in it, the formula never has a value. -/
  valueless : ∀ function ∈ vars, ∀ arguments, (Expr.call function arguments).Occurs e →
    ∀ stream f, compile text vars stream = .ok f → ∀ s inputs x,
      ((f.at s).call inputs).1 ≠ .ok x

/-- **Variables are bound by name.** Over an accepted list of variables, a text compiles to a
formula that neither their order nor their names make a difference to. -/
theorem binds_by_name (hread : Expr.ofText text = .ok e) (hvars : badVariable? [] vars = none) :
    BindsByName text vars e := by
  obtain ⟨hnodup, hreferable⟩ := accepted_iff.1 hvars
  have hcompiled : ∀ stream,
      compile text vars stream = .ok ⟨_, vars, Term.resolve vars e, stream⟩ :=
    fun stream => compile_eq_ok_iff.2 ⟨hvars, e, hread, rfl⟩
  constructor
  case reordered =>
    intro order horder stream
    have hperm : (order.map vars.get).Perm vars := by
      have hmap := horder.map vars.get
      rwa [List.map_get_finRange] at hmap
    have hvars' : badVariable? [] (order.map vars.get) = none :=
      accepted_iff.2 ⟨hperm.nodup_iff.2 hnodup, fun name h => hreferable name (hperm.subset h)⟩
    exact ⟨_, _, hcompiled stream, compile_eq_ok_iff.2 ⟨hvars', e, hread, rfl⟩,
      fun s inputs => alike_of_perm hnodup horder e inputs s⟩
  case renamed =>
    intro v hv w hvars' hoccurs
    obtain ⟨hnodup', hreferable'⟩ := accepted_iff.1 hvars'
    have hw : Referable w :=
      hreferable' w (List.mem_map.2 ⟨v, hv, replaced_self v w⟩)
    refine ⟨Expr.exists_ofText_mapNames hread fun word hword => ?_, fun text' hread' stream => ?_⟩
    · -- whatever can be referred to can be spelled
      rw [replaced]
      split
      · exact Expr.ofText_eq_name_iff.1 hw.read
      · exact hword
    · exact ⟨_, _, hcompiled stream, compile_eq_ok_iff.2 ⟨hvars', _, hread', rfl⟩,
        fun s inputs => alike_mapNames hnodup' hv hoccurs inputs s⟩
  case functions =>
    intro function hmem arguments ρ vars' inputs s
    have hnone := (hreferable function hmem).ofName?_eq_none
    have hfails : ∀ arguments, (Term.resolve vars' (.call function arguments)).eval inputs s =
        (.error (.unknownFunction function), s) := by
      intro arguments
      rw [Term.resolve_unknown vars' hnone, Term.eval]
    exact ⟨hfails arguments, hfails _⟩
  case valueless =>
    intro function hmem arguments hoccurs stream f hf s inputs x hx
    rw [hcompiled] at hf
    obtain rfl := Except.ok.inj hf
    -- a value needs all calls to be within the vocabulary
    have hin : e.InVocabulary vars := Term.resolve_closed_iff.1 (closed_of_call hx)
    obtain ⟨b, hname, -⟩ := hin _ hoccurs
    have hnone := (hreferable function hmem).ofName?_eq_none
    rw [Builtin.ofName?_unqualified.2 hname] at hnone
    cases hnone

/-- A difference of two variables, compiled over them in either order. -/
theorem binds_by_name_difference :
    ∃ e, Expr.ofText "x - sin(y)" = .ok e ∧ badVariable? [] ["x", "y"] = none ∧
      BindsByName "x - sin(y)" ["x", "y"] e ∧
      ∃ f f', compile "x - sin(y)" ["x", "y"] (.ofSeed 1 1) = .ok f ∧
        compile "x - sin(y)" ["y", "x"] (.ofSeed 1 1) = .ok f' ∧
        ∀ s, Alike ((f'.at s).call [0.25, 1.5]) ((f.at s).call [1.5, 0.25]) := by
  have hread : (Expr.ofText "x - sin(y)").toOption.any fun _ => true := by decide +kernel
  have hvars : badVariable? [] ["x", "y"] = none := by decide +kernel
  obtain ⟨e, hread, -⟩ := exists_of_any hread
  have hbinds := binds_by_name hread hvars
  obtain ⟨f, f', hf, hf', halike⟩ := hbinds.reordered [1, 0] (by decide) (.ofSeed 1 1)
  refine ⟨e, hread, hvars, hbinds, f, f', hf, hf', fun s => ?_⟩
  exact halike s fun slot => if slot = 0 then 1.5 else 0.25

end Formula

end CurveArt
