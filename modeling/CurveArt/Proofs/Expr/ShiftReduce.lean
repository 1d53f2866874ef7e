import CurveArt.Proofs.Expr.Grammar

/-!
# The parser against the grammar

The parser keeps a stack of what is still open and never looks back at the text; the grammar is a
set of productions and knows no stack. Two invariants tie them together.

* Forwards, `Reads entry bound tokens tree`: read on top of any stack that holds back operators of
  rank `entry`, the tokens leave the parser with an operand that closes to `tree`, for everything
  that closes operands of rank at most `bound`. Each production has its rule for `Reads`.
* Backwards, `Opens stack tokens`: every frame of the stack is the beginning of a production, and
  the tokens are what these beginnings derive. Each step of the parser keeps `Explains`, the same
  for the parser's state.

Main result: `accepts_iff`, the parser accepts exactly the derived token sequences, with the tree of
the derivation.
-/

namespace CurveArt.Parser

open Grammar

/-- The state after some more tokens, unless one of them cannot stand where it does. -/
def steps? (σ : State) (ts : List Token) : Option State :=
  ts.foldlM step? σ

/-- The tree of a token sequence that the parser accepts. -/
def accepted? (ts : List Token) : Option ParseTree :=
  (steps? start ts).bind finish?

@[simp] theorem steps?_nil (σ : State) : steps? σ [] = some σ := rfl

@[simp] theorem steps?_cons (σ : State) (t : Token) (ts : List Token) :
    steps? σ (t :: ts) = (step? σ t).bind fun next => steps? next ts := rfl

theorem steps?_append {σ σ' : State} {ts : List Token} (us : List Token)
    (h : steps? σ ts = some σ') : steps? σ (ts ++ us) = steps? σ' us := by
  simp only [steps?, List.foldlM_append] at h ⊢
  rw [h]
  rfl

theorem exists_steps?_of_append {σ σ' : State} {ts us : List Token}
    (h : steps? σ (ts ++ us) = some σ') :
    ∃ τ, steps? σ ts = some τ ∧ steps? τ us = some σ' := by
  rw [steps?, List.foldlM_append] at h
  exact Option.bind_eq_some_iff.1 h

/-- Positions only matter to a text that is refused. -/
theorem run_eq_ok_iff {length : Nat} {σ : State} {lexemes : List Lexeme} {tree : ParseTree} :
    run length σ lexemes = .ok tree ↔
      (steps? σ (lexemes.map Lexeme.token)).bind finish? = some tree := by
  -- only the tokens reach the states; the positions stay in the lexemes
  induction lexemes generalizing σ with
  | nil =>
    rw [run]
    cases h : finish? σ <;> simp [h]
  | cons lexeme rest ih =>
    rw [run]
    cases h : step? σ lexeme.token with
    | none => simp [h]
    | some next => simp [h, ih]

/-! ## What a stack holds back -/

/-- What is on top of the stack holds its operand less tightly than `least`, or not at all. -/
def Stops (least : Nat) : List Frame → Prop
  | .sign _ :: _ => signRank < least
  | .left op _ :: _ => rank op < least
  | _ => True

theorem reduce_of_stops {least : Nat} {stack : List Frame} (h : Stops least stack)
    (tree : ParseTree) : reduce least tree stack = (tree, stack) := by
  match stack, h with
  | [], _ => rfl
  | .group :: _, _ => rfl
  | .call _ _ :: _, _ => rfl
  | .sign _ :: _, h => rw [reduce, if_neg (Nat.not_le.2 h)]
  | .left _ _ :: _, h => rw [reduce, if_neg (Nat.not_le.2 h)]

/-- No operator and no sign holds tighter than a power. -/
theorem stops_four (stack : List Frame) : Stops 4 stack := by
  match stack with
  | [] | .group :: _ | .call _ _ :: _ => trivial
  | .sign _ :: _ => exact (by decide : signRank < 4)
  | .left op _ :: _ => cases op <;> simp [Stops, rank]

theorem reduce_sign {least : Nat} (h : least ≤ 2) (tree : ParseTree) (sign : Sign)
    (stack : List Frame) :
    reduce least tree (.sign sign :: stack) = reduce least (.signed sign tree) stack := by
  rw [reduce, if_pos (show least ≤ signRank from h)]

theorem reduce_left {least : Nat} {op : BinaryOp} (h : least ≤ rank op)
    (tree operand : ParseTree) (stack : List Frame) :
    reduce least tree (.left op operand :: stack) =
      reduce least (.binary op operand tree) stack := by
  rw [reduce, if_pos h]

/-! ## Forwards: the parser reads what the grammar derives -/

/-- A state in which an operand has been read; a name may still turn out to be called. -/
inductive Holds : State → ParseTree → List Frame → Prop where
  | operator (tree : ParseTree) (stack : List Frame) : Holds (.operator tree stack) tree stack
  | named (name : String) (stack : List Frame) : Holds (.named name stack) (.name name) stack

/-- A name that no parenthesis follows is an operand like any other. -/
theorem Holds.step?_eq {σ : State} {tree : ParseTree} {stack : List Frame}
    (h : Holds σ tree stack) {t : Token} (ht : t ≠ .leftParen) :
    step? σ t = operator? tree stack t := by
  cases h with
  | operator => rfl
  | named name =>
    cases t with
    | leftParen => exact absurd rfl ht
    | _ => rfl

theorem Holds.step?_rightParen {σ : State} {tree : ParseTree} {stack : List Frame}
    (h : Holds σ tree stack) : step? σ .rightParen = close? tree stack :=
  h.step?_eq nofun

theorem Holds.step?_comma {σ : State} {tree : ParseTree} {stack : List Frame}
    (h : Holds σ tree stack) : step? σ .comma = nextArgument? tree stack :=
  h.step?_eq nofun

theorem Holds.finish?_eq {σ : State} {tree : ParseTree} {stack : List Frame}
    (h : Holds σ tree stack) : finish? σ = finishOperand? tree stack := by
  cases h <;> rfl

/-- Where an operand may stand, on a stack that holds back operators of rank `entry`, the tokens
are read as an operand that is closed to `tree` by whatever closes operands of rank at most `bound`.
-/
def Reads (entry bound : Nat) (ts : List Token) (tree : ParseTree) : Prop :=
  ∀ fresh stack, Stops entry stack →
    ∃ σ top stack', steps? (.operand fresh stack) ts = some σ ∧ Holds σ top stack' ∧
      ∀ least ≤ bound, reduce least top stack' = reduce least tree stack

/-- What reading on any tighter stack and closing to any looser rank gives. -/
theorem Reads.weaken {entry entry' bound bound' : Nat} {ts : List Token} {tree : ParseTree}
    (h : Reads entry bound ts tree) (hentry : ∀ stack, Stops entry' stack → Stops entry stack)
    (hbound : bound' ≤ bound) : Reads entry' bound' ts tree := by
  intro fresh stack hstack
  obtain ⟨σ, top, stack', hsteps, hσ, hreduce⟩ := h fresh stack (hentry stack hstack)
  exact ⟨σ, top, stack', hsteps, hσ, fun least hl => hreduce least (Nat.le_trans hl hbound)⟩

theorem stops_of_lt {least least' : Nat} (h : least ≤ least') {stack : List Frame}
    (hs : Stops least stack) : Stops least' stack := by
  match stack, hs with
  | [], _ | .group :: _, _ | .call _ _ :: _, _ => trivial
  | .sign _ :: _, hs => exact Nat.lt_of_lt_of_le hs h
  | .left _ _ :: _, hs => exact Nat.lt_of_lt_of_le hs h

/-- The rank down to which an operator closes its left operand. -/
def grip (op : BinaryOp) : Nat :=
  if op = .power then 4 else rank op

theorem operator?_token (op : BinaryOp) (tree : ParseTree) (stack : List Frame) :
    operator? tree stack op.token = some (pushOperator op tree stack) := by
  cases op <;> rfl

theorem pushOperator_eq {op : BinaryOp} {tree operand : ParseTree} {stack open' : List Frame}
    (h : reduce (grip op) tree stack = (operand, open')) :
    pushOperator op tree stack = .operand false (.left op operand :: open') := by
  rw [pushOperator, show reduce (if op = .power then 4 else rank op) tree stack = (operand, open')
    from h]

theorem token_ne_leftParen (op : BinaryOp) : op.token ≠ .leftParen := by
  cases op <;> nofun

/-- An operator between two operands: it closes the left one as far as the stack allows, and the
right one goes to it. -/
theorem Reads.binary {op : BinaryOp} {entry bound bound' : Nat} {ls rs : List Token}
    {left right : ParseTree} (hl : Reads (grip op) (grip op) ls left)
    (hr : Reads entry bound rs right)
    (hentry : ∀ operand stack, Stops entry (.left op operand :: stack))
    (hbound : bound' ≤ bound) (hrank : bound' ≤ rank op) :
    Reads (grip op) bound' (ls ++ op.token :: rs) (.binary op left right) := by
  intro fresh stack hstack
  obtain ⟨σ, top, stack', hsteps, hσ, hreduce⟩ := hl fresh stack hstack
  -- the operator closes what belongs to its left operand and leaves the stack as it was before
  have hpush : step? σ op.token = some (.operand false (.left op left :: stack)) := by
    rw [hσ.step?_eq (token_ne_leftParen op), operator?_token,
      pushOperator_eq ((hreduce _ (Nat.le_refl _)).trans (reduce_of_stops hstack left))]
  -- the right operand is read above it, and goes to it when it closes
  obtain ⟨σ', top', stack'', hsteps', hσ', hreduce'⟩ := hr false _ (hentry left stack)
  refine ⟨σ', top', stack'', ?_, hσ', ?_⟩
  · rw [steps?_append _ hsteps, steps?_cons, hpush]
    exact hsteps'
  · intro least hle
    rw [hreduce' least (Nat.le_trans hle hbound), reduce_left (Nat.le_trans hle hrank)]

theorem Reads.signed {ts : List Token} {operand : ParseTree} (sign : Sign)
    (h : Reads 4 2 ts operand) : Reads 4 2 (sign.token :: ts) (.signed sign operand) := by
  intro fresh stack _
  obtain ⟨σ, top, stack', hsteps, hσ, hreduce⟩ := h false (.sign sign :: stack) (stops_four _)
  refine ⟨σ, top, stack', ?_, hσ, ?_⟩
  · cases sign <;> exact hsteps
  · intro least hle
    rw [hreduce least hle, reduce_sign hle]

theorem reads_number (value : Float) : Reads 4 4 [.number value] (.number value) :=
  fun _ stack _ => ⟨_, _, stack, rfl, .operator _ _, fun _ _ => rfl⟩

theorem reads_name (name : String) : Reads 4 4 [.name name] (.name name) :=
  fun _ stack _ => ⟨_, _, stack, rfl, .named _ _, fun _ _ => rfl⟩

theorem Reads.group {ts : List Token} {inner : ParseTree} (h : Reads 0 0 ts inner) :
    Reads 4 4 (.leftParen :: (ts ++ [.rightParen])) (.group inner) := by
  intro fresh stack _
  obtain ⟨σ, top, stack', hsteps, hσ, hreduce⟩ := h true (.group :: stack) trivial
  refine ⟨.operator (.group inner) stack, _, stack, ?_, .operator _ _, fun _ _ => rfl⟩
  -- the group is read on a stack of its own, of which its parenthesis closes everything
  have hclose : close? top stack' = some (.operator (.group inner) stack) := by
    rw [close?, hreduce 0 (Nat.le_refl 0)]
    rfl
  rw [steps?_cons]
  show steps? (.operand true (.group :: stack)) (ts ++ [.rightParen]) = _
  rw [steps?_append _ hsteps, steps?_cons, hσ.step?_rightParen, hclose]
  rfl

theorem reads_callEmpty (function : String) :
    Reads 4 4 [.name function, .leftParen, .rightParen] (.call function []) :=
  fun _ stack _ => ⟨_, _, stack, rfl, .operator _ _, fun _ _ => rfl⟩

/-- Behind the parenthesis of a call, the tokens are read as its arguments, the last of which is
still open. -/
def ReadsArguments (ts : List Token) (trees : List ParseTree) : Prop :=
  ∀ function stack, ∃ σ top stack' reversed last,
    steps? (.operand true (.call function [] :: stack)) ts = some σ ∧ Holds σ top stack' ∧
      reduce 0 top stack' = (last, .call function reversed :: stack) ∧
      reversed.reverse ++ [last] = trees

theorem Reads.one {ts : List Token} {tree : ParseTree} (h : Reads 0 0 ts tree) :
    ReadsArguments ts [tree] := by
  intro function stack
  obtain ⟨σ, top, stack', hsteps, hσ, hreduce⟩ := h true (.call function [] :: stack) trivial
  exact ⟨σ, top, stack', [], tree, hsteps, hσ, hreduce 0 (Nat.le_refl 0), rfl⟩

theorem ReadsArguments.more {ts us : List Token} {trees : List ParseTree} {tree : ParseTree}
    (h : ReadsArguments ts trees) (h' : Reads 0 0 us tree) :
    ReadsArguments (ts ++ .comma :: us) (trees ++ [tree]) := by
  intro function stack
  obtain ⟨σ, top, stack', reversed, last, hsteps, hσ, hreduce, htrees⟩ := h function stack
  -- the comma puts the argument that was open with those that have been read
  have hnext : nextArgument? top stack' =
      some (.operand true (.call function (last :: reversed) :: stack)) := by
    rw [nextArgument?, hreduce]
  obtain ⟨σ', top', stack'', hsteps', hσ', hreduce'⟩ :=
    h' true (.call function (last :: reversed) :: stack) trivial
  refine ⟨σ', top', stack'', last :: reversed, tree, ?_, hσ', hreduce' 0 (Nat.le_refl 0), ?_⟩
  · rw [steps?_append _ hsteps, steps?_cons, hσ.step?_comma, hnext]
    exact hsteps'
  · rw [List.reverse_cons, htrees]

theorem ReadsArguments.call {ts : List Token} {trees : List ParseTree}
    (h : ReadsArguments ts trees) (function : String) :
    Reads 4 4 (.name function :: .leftParen :: (ts ++ [.rightParen])) (.call function trees) := by
  intro fresh stack _
  obtain ⟨σ, top, stack', reversed, last, hsteps, hσ, hreduce, htrees⟩ := h function stack
  refine ⟨.operator (.call function trees) stack, _, stack, ?_, .operator _ _, fun _ _ => rfl⟩
  have hclose : close? top stack' = some (.operator (.call function trees) stack) := by
    rw [close?, hreduce]
    show some (State.operator (.call function (reversed.reverse ++ [last])) stack) = _
    rw [htrees]
  rw [steps?_cons]
  show steps? (.operand true (.call function [] :: stack)) (ts ++ [.rightParen]) = _
  rw [steps?_append _ hsteps, steps?_cons, hσ.step?_rightParen, hclose]
  rfl

/-- How the parser reads what a category derives. -/
def ReadsAs : (c : Category) → List Token → c.Result → Prop
  | .sum => Reads 0 0
  | .term => Reads 1 1
  | .unary => Reads 4 2
  | .power => Reads 4 2
  | .primary => Reads 4 4
  | .arguments => ReadsArguments

/-- The parser reads every derivation, one rule for each production. -/
theorem readsAs_tokens {c : Category} (d : Derivation c) : ReadsAs c d.tokens d.result := by
  -- a production without an operator only weakens what is known of its one part
  induction d with
  | ofTerm term ih =>
    have hread : Reads 1 1 term.tokens term.result := ih
    exact hread.weaken (fun _ => stops_of_lt (by decide)) (by decide)
  | add left op right ihl ihr =>
    have hgrip : grip op.op = 0 := by cases op <;> rfl
    have hrank : rank op.op = 0 := by cases op <;> rfl
    have hread : Reads (grip op.op) 0 (left.tokens ++ op.op.token :: right.tokens)
        (.binary op.op left.result right.result) :=
      Reads.binary (by rw [hgrip]; exact ihl) ihr (fun _ _ => show rank op.op < 1 by omega)
        (by decide) (Nat.zero_le _)
    rwa [hgrip] at hread
  | ofUnary unary ih =>
    have hread : Reads 4 2 unary.tokens unary.result := ih
    exact hread.weaken (fun stack _ => stops_four stack) (by decide)
  | multiply left op right ihl ihr =>
    have hgrip : grip op.op = 1 := by cases op <;> rfl
    have hrank : rank op.op = 1 := by cases op <;> rfl
    have hread : Reads (grip op.op) 1 (left.tokens ++ op.op.token :: right.tokens)
        (.binary op.op left.result right.result) :=
      Reads.binary (by rw [hgrip]; exact ihl) ihr (fun _ _ => stops_four _) (by decide) (by omega)
    rwa [hgrip] at hread
  | signed sign operand ih => exact Reads.signed sign ih
  | ofPower power ih => exact ih
  | ofPrimary primary ih =>
    have hread : Reads 4 4 primary.tokens primary.result := ih
    exact hread.weaken (fun _ h => h) (by decide)
  | raise base exponent ihb ihe =>
    have hread : Reads (grip .power) 2 (base.tokens ++ BinaryOp.power.token :: exponent.tokens)
        (.binary .power base.result exponent.result) :=
      Reads.binary ihb ihe (fun _ _ => stops_four _) (by decide) (by decide)
    exact hread
  | number value => exact reads_number value
  | callEmpty function => exact reads_callEmpty function
  | call function arguments ih => exact ReadsArguments.call ih function
  | name word => exact reads_name word
  | group inner ih => exact Reads.group ih
  | one argument ih => exact Reads.one ih
  | more before argument ihb iha => exact ReadsArguments.more ihb iha

theorem accepted?_tokens (d : Derivation .sum) : accepted? d.tokens = some d.tree := by
  obtain ⟨σ, top, stack, hsteps, hσ, hreduce⟩ :=
    (readsAs_tokens d : Reads 0 0 d.tokens d.tree) true [] trivial
  rw [accepted?, show steps? start d.tokens = some σ from hsteps, Option.bind_some, hσ.finish?_eq,
    finishOperand?, hreduce 0 (Nat.le_refl 0)]
  rfl

/-! ## Backwards: what the parser reads has a derivation -/

/-- The tokens are what the open frames have derived so far. A left operand is as tight a derivation
as its operator asks for, and stands where that operator could not close anything before it. -/
inductive Opens : List Frame → List Token → Prop where
  | nil : Opens [] []
  | sign {stack : List Frame} {ts : List Token} (h : Opens stack ts) (sign : Sign) :
    Opens (.sign sign :: stack) (ts ++ [sign.token])
  | add {stack : List Frame} {ts : List Token} (h : Opens stack ts) (hs : Stops 0 stack)
    (left : Derivation .sum) (op : AddOp) :
    Opens (.left op.op left.result :: stack) (ts ++ (left.tokens ++ [op.op.token]))
  | multiply {stack : List Frame} {ts : List Token} (h : Opens stack ts) (hs : Stops 1 stack)
    (left : Derivation .term) (op : MulOp) :
    Opens (.left op.op left.result :: stack) (ts ++ (left.tokens ++ [op.op.token]))
  | raise {stack : List Frame} {ts : List Token} (h : Opens stack ts)
    (base : Derivation .primary) :
    Opens (.left .power base.result :: stack) (ts ++ (base.tokens ++ [.power]))
  | group {stack : List Frame} {ts : List Token} (h : Opens stack ts) :
    Opens (.group :: stack) (ts ++ [.leftParen])
  | call {stack : List Frame} {ts : List Token} (h : Opens stack ts) (function : String) :
    Opens (.call function [] :: stack) (ts ++ [.name function, .leftParen])
  | arguments {stack : List Frame} {ts : List Token} (h : Opens stack ts) (function : String)
    (before : Derivation .arguments) :
    Opens (.call function before.result.reverse :: stack)
      (ts ++ (.name function :: .leftParen :: (before.tokens ++ [.comma])))

/-- Closing can be done in two stages, the tighter ranks first. -/
theorem reduce_reduce {least least' : Nat} (h : least ≤ least') (tree : ParseTree)
    (stack : List Frame) :
    reduce least (reduce least' tree stack).1 (reduce least' tree stack).2 =
      reduce least tree stack := by
  -- where the tighter ranks stop, the looser ones are looked at for the first time
  induction stack generalizing tree with
  | nil => rfl
  | cons frame stack ih =>
    cases frame with
    | group => rfl
    | call function reversed => rfl
    | sign sign =>
      by_cases hr : least' ≤ signRank
      · rw [reduce_sign hr, reduce_sign (Nat.le_trans h hr), ih]
      · rw [reduce_of_stops (show Stops least' (.sign sign :: stack) from Nat.not_le.1 hr)]
    | left op operand =>
      by_cases hr : least' ≤ rank op
      · rw [reduce_left hr, reduce_left (Nat.le_trans h hr), ih]
      · rw [reduce_of_stops (show Stops least' (.left op operand :: stack) from Nat.not_le.1 hr)]

/-- Closed down to the rank of products, a unary expression becomes a term. -/
theorem Opens.reduce_unary {stack : List Frame} {ts : List Token} (h : Opens stack ts)
    (d : Derivation .unary) :
    ∃ (d' : Derivation .term) (stack' : List Frame) (ts' : List Token),
      reduce 1 d.result stack = (d'.result, stack') ∧ Opens stack' ts' ∧ Stops 1 stack' ∧
        ts' ++ d'.tokens = ts ++ d.tokens := by
  -- signs and powers go on closing, a product closes once, and everything else stays open
  induction h generalizing d with
  | nil => exact ⟨.ofUnary d, _, _, rfl, .nil, trivial, rfl⟩
  | group h => exact ⟨.ofUnary d, _, _, rfl, .group h, trivial, rfl⟩
  | call h function => exact ⟨.ofUnary d, _, _, rfl, .call h function, trivial, rfl⟩
  | arguments h function before =>
    exact ⟨.ofUnary d, _, _, rfl, .arguments h function before, trivial, rfl⟩
  | sign h sign ih =>
    obtain ⟨d', stack', ts', hreduce, hopens, hs, htokens⟩ := ih (.signed sign d)
    refine ⟨d', stack', ts', ?_, hopens, hs, ?_⟩
    · rw [reduce_sign (by decide)]
      exact hreduce
    · rw [htokens, Derivation.tokens, List.append_assoc, List.singleton_append]
  | raise h base ih =>
    -- the exponent is complete, and the power is a unary expression again
    obtain ⟨d', stack', ts', hreduce, hopens, hs, htokens⟩ := ih (.ofPower (.raise base d))
    refine ⟨d', stack', ts', ?_, hopens, hs, ?_⟩
    · rw [reduce_left (by decide)]
      exact hreduce
    · rw [htokens]
      simp [Derivation.tokens]
  | multiply h hs left op _ =>
    have hrank : rank op.op = 1 := by cases op <;> rfl
    refine ⟨.multiply left op d, _, _, ?_, h, hs, ?_⟩
    · rw [reduce_left (by omega)]
      exact reduce_of_stops hs (Derivation.multiply left op d).result
    · simp [Derivation.tokens]
  | @add stack ts h hs left op _ =>
    -- the sum to the left waits for the whole term
    have hrank : rank op.op = 0 := by cases op <;> rfl
    have hstops : Stops 1 (.left op.op left.result :: stack) := show rank op.op < 1 by omega
    exact ⟨.ofUnary d, _, _, reduce_of_stops hstops _, .add h hs left op, hstops, rfl⟩

/-- Closed down to the rank of sums, a term becomes a sum. -/
theorem Opens.reduce_term {stack : List Frame} {ts : List Token} (h : Opens stack ts)
    (hs : Stops 1 stack) (d : Derivation .term) :
    ∃ (d' : Derivation .sum) (stack' : List Frame) (ts' : List Token),
      reduce 0 d.result stack = (d'.result, stack') ∧ Opens stack' ts' ∧ Stops 0 stack' ∧
        ts' ++ d'.tokens = ts ++ d.tokens := by
  cases h with
  | nil => exact ⟨.ofTerm d, _, _, rfl, .nil, trivial, rfl⟩
  | group h => exact ⟨.ofTerm d, _, _, rfl, .group h, trivial, rfl⟩
  | call h function => exact ⟨.ofTerm d, _, _, rfl, .call h function, trivial, rfl⟩
  | arguments h function before =>
    exact ⟨.ofTerm d, _, _, rfl, .arguments h function before, trivial, rfl⟩
  -- what holds a term tighter than a sum would has been closed before
  | sign h sign => exact absurd hs (by decide : ¬ signRank < 1)
  | raise h base => exact absurd hs (by decide : ¬ rank .power < 1)
  | multiply h _ left op =>
    have hrank : rank op.op = 1 := by cases op <;> rfl
    exact absurd (show rank op.op < 1 from hs) (by omega)
  | add h hs' left op =>
    refine ⟨.add left op d, _, _, ?_, h, hs', ?_⟩
    · rw [reduce_left (Nat.zero_le _)]
      exact reduce_of_stops hs' (Derivation.add left op d).result
    · simp [Derivation.tokens]

/-- Closed all the way, a primary becomes a sum. -/
theorem Opens.reduce_primary {stack : List Frame} {ts : List Token} (h : Opens stack ts)
    (d : Derivation .primary) :
    ∃ (d' : Derivation .sum) (stack' : List Frame) (ts' : List Token),
      reduce 0 d.result stack = (d'.result, stack') ∧ Opens stack' ts' ∧ Stops 0 stack' ∧
        ts' ++ d'.tokens = ts ++ d.tokens := by
  -- first as far as a term goes, then from the term to the sum
  obtain ⟨term, stack', ts', hreduce, hopens, hs, htokens⟩ :=
    h.reduce_unary (.ofPower (.ofPrimary d))
  obtain ⟨sum, stack'', ts'', hreduce', hopens', hs', htokens'⟩ := hopens.reduce_term hs term
  refine ⟨sum, stack'', ts'', ?_, hopens', hs', htokens'.trans htokens⟩
  rw [← reduce_reduce (Nat.zero_le 1), show reduce 1 d.result stack = _ from hreduce]
  exact hreduce'

/-- The state's frames and its operand, if it has one, derive the tokens. -/
inductive Explains : State → List Token → Prop where
  | operand {stack : List Frame} {ts : List Token} (h : Opens stack ts) (fresh : Bool) :
    Explains (.operand fresh stack) ts
  | named {stack : List Frame} {ts : List Token} (h : Opens stack ts) (name : String) :
    Explains (.named name stack) (ts ++ [.name name])
  | operator {stack : List Frame} {ts : List Token} (h : Opens stack ts)
    (d : Derivation .primary) : Explains (.operator d.result stack) (ts ++ d.tokens)

theorem Opens.of_call {function : String} {reversed : List ParseTree} {stack : List Frame}
    {ts : List Token} (h : Opens (.call function reversed :: stack) ts) :
    ∃ ts', Opens stack ts' ∧
      ((reversed = [] ∧ ts = ts' ++ [.name function, .leftParen]) ∨
        ∃ before : Derivation .arguments, reversed = before.result.reverse ∧
          ts = ts' ++ (.name function :: .leftParen :: (before.tokens ++ [.comma]))) := by
  cases h with
  | call h => exact ⟨_, h, .inl ⟨rfl, rfl⟩⟩
  | arguments h _ before => exact ⟨_, h, .inr ⟨before, rfl, rfl⟩⟩

theorem Opens.operand? {stack : List Frame} {ts : List Token} (h : Opens stack ts) {fresh : Bool}
    {t : Token} {σ : State} (ht : operand? fresh stack t = some σ) : Explains σ (ts ++ [t]) := by
  cases t with
  | number value =>
    obtain rfl := Option.some.inj ht
    exact .operator h (.number value)
  | name name =>
    obtain rfl := Option.some.inj ht
    exact .named h name
  | plus =>
    obtain rfl := Option.some.inj ht
    exact .operand (.sign h .plus) false
  | minus =>
    obtain rfl := Option.some.inj ht
    exact .operand (.sign h .minus) false
  | leftParen =>
    obtain rfl := Option.some.inj ht
    exact .operand (.group h) true
  | rightParen =>
    -- only an argument list of which nothing has been read may be closed here
    simp only [Parser.operand?] at ht
    split at ht
    · rename_i function open'
      obtain rfl := Option.some.inj ht
      obtain ⟨ts', h', ⟨-, rfl⟩ | ⟨before, hnil, -⟩⟩ := h.of_call
      · rw [List.append_assoc]
        exact .operator h' (.callEmpty function)
      · exact absurd (List.reverse_eq_nil_iff.1 hnil.symm) (Derivation.result_ne_nil before)
    · cases ht
  | _ => cases ht

/-- What a comma or a closing parenthesis ends is the last argument of its call. -/
theorem Opens.last_argument {function : String} {reversed : List ParseTree} {stack : List Frame}
    {ts : List Token} (h : Opens (.call function reversed :: stack) ts) (last : Derivation .sum) :
    ∃ (ts' : List Token) (arguments : Derivation .arguments), Opens stack ts' ∧
      arguments.result = reversed.reverse ++ [last.result] ∧
      ts ++ last.tokens = ts' ++ (.name function :: .leftParen :: arguments.tokens) := by
  obtain ⟨ts', h', ⟨rfl, rfl⟩ | ⟨before, rfl, rfl⟩⟩ := h.of_call
  · exact ⟨ts', .one last, h', rfl, by simp [Derivation.tokens]⟩
  · exact ⟨ts', .more before last, h', by simp [Derivation.result], by simp [Derivation.tokens]⟩

theorem Opens.close? {stack : List Frame} {ts : List Token} (h : Opens stack ts)
    (d : Derivation .primary) {σ : State} (hσ : close? d.result stack = some σ) :
    Explains σ (ts ++ d.tokens ++ [.rightParen]) := by
  -- everything up to the parenthesis is closed, so the operand has become a whole sum
  obtain ⟨sum, stack', ts', hreduce, hopens, -, htokens⟩ := h.reduce_primary d
  rw [Parser.close?, hreduce] at hσ
  rw [← htokens]
  match stack', hopens, hσ with
  | .group :: open', hopens, hσ =>
    obtain rfl := Option.some.inj hσ
    cases hopens with
    | group h' =>
      simpa [Derivation.tokens, Derivation.result] using Explains.operator h' (.group sum)
  | .call function reversed :: open', hopens, hσ =>
    obtain rfl := Option.some.inj hσ
    obtain ⟨ts'', arguments, h', hresult, hts⟩ := hopens.last_argument sum
    have := Explains.operator h' (.call function arguments)
    rw [Derivation.result, hresult] at this
    rw [hts]
    simpa [Derivation.tokens] using this

theorem Opens.nextArgument? {stack : List Frame} {ts : List Token} (h : Opens stack ts)
    (d : Derivation .primary) {σ : State} (hσ : nextArgument? d.result stack = some σ) :
    Explains σ (ts ++ d.tokens ++ [.comma]) := by
  obtain ⟨sum, stack', ts', hreduce, hopens, -, htokens⟩ := h.reduce_primary d
  rw [Parser.nextArgument?, hreduce] at hσ
  rw [← htokens]
  match stack', hopens, hσ with
  | .call function reversed :: open', hopens, hσ =>
    obtain rfl := Option.some.inj hσ
    obtain ⟨ts'', arguments, h', hresult, hts⟩ := hopens.last_argument sum
    have := Opens.arguments h' function arguments
    rw [hresult, List.reverse_append, List.reverse_reverse] at this
    rw [hts]
    simpa using Explains.operand this true

theorem Opens.pushAdd {stack : List Frame} {ts : List Token} (h : Opens stack ts)
    (d : Derivation .primary) (op : AddOp) :
    Explains (pushOperator op.op d.result stack) (ts ++ d.tokens ++ [op.op.token]) := by
  have hgrip : grip op.op = 0 := by cases op <;> rfl
  obtain ⟨sum, stack', ts', hreduce, hopens, hs, htokens⟩ := h.reduce_primary d
  have hclose : reduce (grip op.op) d.result stack = (sum.result, stack') := by
    rw [hgrip]
    exact hreduce
  rw [pushOperator_eq hclose, ← htokens, List.append_assoc]
  exact .operand (.add hopens hs sum op) false

theorem Opens.pushMultiply {stack : List Frame} {ts : List Token} (h : Opens stack ts)
    (d : Derivation .primary) (op : MulOp) :
    Explains (pushOperator op.op d.result stack) (ts ++ d.tokens ++ [op.op.token]) := by
  have hgrip : grip op.op = 1 := by cases op <;> rfl
  obtain ⟨term, stack', ts', hreduce, hopens, hs, htokens⟩ :=
    h.reduce_unary (.ofPower (.ofPrimary d))
  have hclose : reduce (grip op.op) d.result stack = (term.result, stack') := by
    rw [hgrip]
    exact hreduce
  rw [pushOperator_eq hclose, show ts ++ d.tokens = ts' ++ term.tokens from htokens.symm,
    List.append_assoc]
  exact .operand (.multiply hopens hs term op) false

/-- An operator after a primary closes what holds the primary tighter. -/
theorem Opens.pushOperator {stack : List Frame} {ts : List Token} (h : Opens stack ts)
    (d : Derivation .primary) (op : BinaryOp) :
    Explains (pushOperator op d.result stack) (ts ++ d.tokens ++ [op.token]) := by
  match op with
  | .power =>
    -- a power closes nothing, so its base is the primary itself
    have hclose : reduce (grip .power) d.result stack = (d.result, stack) :=
      reduce_of_stops (stops_four stack) d.result
    rw [pushOperator_eq hclose, List.append_assoc]
    exact .operand (.raise h d) false
  | .plus => exact h.pushAdd d .plus
  | .minus => exact h.pushAdd d .minus
  | .times => exact h.pushMultiply d .times
  | .divide => exact h.pushMultiply d .divide

theorem Opens.operator? {stack : List Frame} {ts : List Token} (h : Opens stack ts)
    (d : Derivation .primary) {t : Token} {σ : State}
    (ht : operator? d.result stack t = some σ) : Explains σ (ts ++ d.tokens ++ [t]) := by
  cases t with
  | power =>
    obtain rfl := Option.some.inj ht
    exact h.pushOperator d .power
  | times =>
    obtain rfl := Option.some.inj ht
    exact h.pushOperator d .times
  | divide =>
    obtain rfl := Option.some.inj ht
    exact h.pushOperator d .divide
  | plus =>
    obtain rfl := Option.some.inj ht
    exact h.pushOperator d .plus
  | minus =>
    obtain rfl := Option.some.inj ht
    exact h.pushOperator d .minus
  | rightParen => exact h.close? d ht
  | comma => exact h.nextArgument? d ht
  | _ => cases ht

/-- One step of the parser keeps the explanation of what has been read. -/
theorem Explains.step? {σ σ' : State} {ts : List Token} (h : Explains σ ts) {t : Token}
    (ht : step? σ t = some σ') : Explains σ' (ts ++ [t]) := by
  cases h with
  | operand h fresh => exact h.operand? ht
  | operator h d => exact h.operator? d ht
  | named h name =>
    -- a parenthesis makes the name a call, anything else makes it an operand
    by_cases hp : t = .leftParen
    · subst hp
      obtain rfl := Option.some.inj ht
      rw [List.append_assoc]
      exact .operand (.call h name) true
    · rw [(Holds.named name _).step?_eq hp] at ht
      exact h.operator? (.name name) ht

theorem Explains.steps? {σ σ' : State} {ts us : List Token} (h : Explains σ ts)
    (hus : steps? σ us = some σ') : Explains σ' (ts ++ us) := by
  -- one step at a time, from whatever has been read so far
  induction us generalizing σ ts with
  | nil =>
    obtain rfl := Option.some.inj hus
    rwa [List.append_nil]
  | cons t us ih =>
    rw [steps?_cons] at hus
    obtain ⟨next, hstep, hrest⟩ := Option.bind_eq_some_iff.1 hus
    have := ih (h.step? hstep) hrest
    rwa [List.append_assoc, List.singleton_append] at this

theorem Opens.finishOperand? {stack : List Frame} {ts : List Token} (h : Opens stack ts)
    (d : Derivation .primary) {tree : ParseTree} (ht : finishOperand? d.result stack = some tree) :
    ∃ d' : Derivation .sum, d'.tokens = ts ++ d.tokens ∧ d'.tree = tree := by
  obtain ⟨sum, stack', ts', hreduce, hopens, -, htokens⟩ := h.reduce_primary d
  rw [Parser.finishOperand?, hreduce] at ht
  match stack', hopens, ht with
  | [], hopens, ht =>
    cases hopens
    exact ⟨sum, htokens, Option.some.inj ht⟩

theorem Explains.finish? {σ : State} {ts : List Token} (h : Explains σ ts) {tree : ParseTree}
    (ht : finish? σ = some tree) : ∃ d : Derivation .sum, d.tokens = ts ∧ d.tree = tree := by
  cases h with
  | operand h fresh => cases ht
  | named h name => exact h.finishOperand? (.name name) ht
  | operator h d => exact h.finishOperand? d ht

/-- The parser accepts exactly the derived token sequences, each with the tree of its derivation. -/
theorem accepts_iff {ts : List Token} {tree : ParseTree} :
    accepted? ts = some tree ↔ ∃ d : Derivation .sum, d.tokens = ts ∧ d.tree = tree := by
  constructor
  · intro h
    obtain ⟨σ, hsteps, hfinish⟩ := Option.bind_eq_some_iff.1 h
    exact ((Explains.operand Opens.nil true).steps? hsteps).finish? hfinish
  · rintro ⟨d, rfl, rfl⟩
    exact accepted?_tokens d

/-- No token sequence has two derivations. -/
theorem derivation_unique {d d' : Derivation .sum} (h : d.tokens = d'.tokens) : d = d' := by
  -- the parser gives both the same tree, and a derivation can be read off its tree
  have htree := accepted?_tokens d
  rw [h, accepted?_tokens d'] at htree
  exact Derivation.result_injective d d' (Option.some.inj htree).symm

end CurveArt.Parser
