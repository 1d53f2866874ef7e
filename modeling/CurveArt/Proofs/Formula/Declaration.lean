import CurveArt.Proofs.Expr.RoundTrip
import CurveArt.Proofs.Formula.PostOrder
import CurveArt.Proofs.Generation.Answer

/-!
# Names that can be declared

A variable is declared by its name and referred to by an expression that is nothing but this name.
What can be declared is judged character by character, what can be referred to by the grammar, and
both come to the same: a declarable name is a text without points that is read as just that name,
and it belongs neither to the functions nor to the constants, which would otherwise be meant.

Main results:

* `isPlainName_iff`: the characters of a name against the grammar.
* `badVariable?_eq_none_iff`, `badVariable?_eq_some_iff`: which lists are accepted, and the name
  that a refused list is refused for.
* `declarable_iff_referable`: all of this, and that a declared variable has the value of its input.
-/

namespace CurveArt

open Spelling

/-! ## Names without points -/

namespace Spelling

theorem continuesName_point : Token.continuesName '.' = false := by decide

theorem startsName_point : Token.startsName '.' = false := by decide

/-- Words are the names without points. -/
theorem isWord_iff {text : List Char} : IsWord text ↔ IsName text ∧ '.' ∉ text := by
  constructor
  · intro h
    refine ⟨.word h, ?_⟩
    obtain ⟨hc, hr⟩ := h
    intro hpoint
    rcases List.mem_cons.1 hpoint with rfl | hpoint
    · rw [startsName_point] at hc
      cases hc
    · have := hr '.' hpoint
      rw [continuesName_point] at this
      cases this
  · rintro ⟨hname, hpoint⟩
    cases hname with
    | word h => exact h
    | dotted => exact absurd (by simp) hpoint

end Spelling

namespace Expr

/-- A text is read as the name that it is exactly if it is one. -/
theorem ofText_eq_name_iff {word : String} :
    ofText word = .ok (.name word) ↔ IsName word.toList := by
  constructor
  · intro h
    exact (wellSpelled_iff.1 (wellSpelled_of_ofText h)).1
  · intro h
    have hspelled : (Expr.name word).WellSpelled := wellSpelled_iff.2 ⟨h, nofun⟩
    have hread := ofText_of_cut (cut_text hspelled)
    exact hread

end Expr

/-! ## Names that can be referred to -/

namespace Formula

/-- A name that an expression can refer to as a variable: read as an expression it is this name,
without points, and no name of the vocabulary. -/
structure Referable (name : String) : Prop where
  no_point : '.' ∉ name.toList
  not_builtin : ∀ b : Builtin, name ≠ b.name
  not_constant : ∀ c ∈ constants, name ≠ c.1
  read : Expr.ofText name = .ok (.name name)

theorem isPlainName_iff {name : String} :
    isPlainName name = true ↔ '.' ∉ name.toList ∧ Expr.ofText name = .ok (.name name) := by
  rw [Expr.ofText_eq_name_iff, and_comm, ← isWord_iff, isPlainName]
  constructor
  · intro h
    split at h
    · cases h
    · next c rest htext =>
      rw [htext]
      obtain ⟨hc, hr⟩ := Bool.and_eq_true_iff.1 h
      exact .mk hc (List.all_eq_true.1 hr)
  · intro h
    generalize name.toList = text at h
    obtain ⟨hc, hr⟩ := h
    exact Bool.and_eq_true_iff.2 ⟨hc, List.all_eq_true.2 hr⟩

theorem isReserved_iff {name : String} :
    isReserved name = true ↔ (∃ b : Builtin, name = b.name) ∨ ∃ c ∈ constants, name = c.1 := by
  rw [isReserved, Bool.or_eq_true, constant?_isSome]
  refine or_congr_left ?_
  constructor
  · intro h
    obtain ⟨b, hb⟩ := Option.isSome_iff_exists.1 h
    have hname := List.find?_some hb
    exact ⟨b, (beq_iff_eq.1 hname).symm⟩
  · rintro ⟨b, rfl⟩
    rw [Builtin.ofName?_name]
    rfl

theorem referable_iff {name : String} :
    Referable name ↔ isPlainName name = true ∧ isReserved name = false := by
  rw [isPlainName_iff, Bool.eq_false_iff, Ne, isReserved_iff]
  constructor
  · rintro ⟨hpoint, hbuiltin, hconstant, hread⟩
    refine ⟨⟨hpoint, hread⟩, ?_⟩
    rintro (⟨b, hb⟩ | ⟨c, hc, hname⟩)
    · exact hbuiltin b hb
    · exact hconstant c hc hname
  · rintro ⟨⟨hpoint, hread⟩, hfree⟩
    exact ⟨hpoint, fun b hb => hfree (.inl ⟨b, hb⟩), fun c hc hname => hfree (.inr ⟨c, hc, hname⟩),
      hread⟩

/-! ## Lists of names -/

variable {declared vars : List String} {name first : String}

/-- A name goes through if it can be referred to and has not been declared before. -/
theorem badVariable?_of_good (h : Referable name ∧ name ∉ declared) (rest : List String) :
    badVariable? declared (name :: rest) = badVariable? (name :: declared) rest := by
  obtain ⟨hplain, hfree⟩ := referable_iff.1 h.1
  simp [badVariable?, hplain, hfree, h.2]

theorem badVariable?_of_bad (h : ¬(Referable name ∧ name ∉ declared)) (rest : List String) :
    badVariable? declared (name :: rest) = some name := by
  rw [badVariable?, if_pos]
  by_contra hgood
  simp only [Bool.or_eq_true, Bool.not_eq_true', List.contains_iff_mem, not_or,
    Bool.not_eq_false, Bool.not_eq_true] at hgood
  exact h ⟨referable_iff.2 hgood.1, hgood.2⟩

/-- A list is accepted if its names can be referred to and are distinct. -/
theorem badVariable?_eq_none_iff :
    badVariable? declared vars = none ↔
      vars.Nodup ∧ ∀ name ∈ vars, Referable name ∧ name ∉ declared := by
  induction vars generalizing declared with
  | nil => simp [badVariable?]
  | cons first vars ih =>
    by_cases hgood : Referable first ∧ first ∉ declared
    · -- what may follow is neither declared before nor this name
      rw [badVariable?_of_good hgood, ih, List.nodup_cons, List.forall_mem_cons]
      simp only [List.mem_cons, not_or]
      constructor
      · rintro ⟨hnodup, hrest⟩
        refine ⟨⟨fun hmem => (hrest first hmem).2.1 rfl, hnodup⟩, hgood, fun other hmem => ?_⟩
        exact ⟨(hrest other hmem).1, (hrest other hmem).2.2⟩
      · rintro ⟨⟨hfirst, hnodup⟩, -, hrest⟩
        refine ⟨hnodup, fun other hmem => ⟨(hrest other hmem).1, ?_, (hrest other hmem).2⟩⟩
        rintro rfl
        exact hfirst hmem
    · rw [badVariable?_of_bad hgood]
      simp only [reduceCtorEq, List.forall_mem_cons, false_iff]
      exact fun h => hgood h.2.1

/-- A list is refused for the first name that cannot be referred to or has come before. -/
theorem badVariable?_eq_some_iff :
    badVariable? declared vars = some name ↔
      ∃ before after, vars = before ++ name :: after ∧ badVariable? declared before = none ∧
        (¬Referable name ∨ name ∈ declared ∨ name ∈ before) := by
  induction vars generalizing declared with
  | nil => simp [badVariable?]
  | cons first vars ih =>
    by_cases hgood : Referable first ∧ first ∉ declared
    · rw [badVariable?_of_good hgood, ih]
      constructor
      · rintro ⟨before, after, rfl, hbefore, hbad⟩
        refine ⟨first :: before, after, rfl, ?_, ?_⟩
        · rwa [badVariable?_of_good hgood]
        · simp only [List.mem_cons] at hbad ⊢
          tauto
      · rintro ⟨before, after, hvars, hbefore, hbad⟩
        cases before with
        | nil =>
          obtain ⟨rfl, -⟩ := List.cons.inj hvars
          simp [hgood.1, hgood.2] at hbad
        | cons first' before =>
          obtain ⟨rfl, rfl⟩ := List.cons.inj hvars
          rw [badVariable?_of_good hgood] at hbefore
          refine ⟨before, after, rfl, hbefore, ?_⟩
          simp only [List.mem_cons] at hbad ⊢
          tauto
    · rw [badVariable?_of_bad hgood]
      constructor
      · rintro h
        obtain rfl := Option.some.inj h
        refine ⟨[], vars, rfl, rfl, ?_⟩
        tauto
      · rintro ⟨before, after, hvars, hbefore, -⟩
        cases before with
        | nil => rw [(List.cons.inj hvars).1]
        | cons first' before =>
          -- the list before the name would have been refused already
          obtain ⟨rfl, -⟩ := List.cons.inj hvars
          rw [badVariable?_of_bad hgood] at hbefore
          cases hbefore

theorem accepted_iff :
    badVariable? [] vars = none ↔ vars.Nodup ∧ ∀ name ∈ vars, Referable name := by
  rw [badVariable?_eq_none_iff]
  simp

theorem compile_invalidVariable_iff {text : String} {stream : Random.Stream} :
    compile text vars stream = .error (.invalidVariable name) ↔
      badVariable? [] vars = some name := by
  constructor
  · intro h
    cases hvars : badVariable? [] vars with
    | none => exact absurd trivial (compile_not_invalidVariable hvars h)
    | some other =>
      rw [compile, hvars] at h
      rw [CompileError.invalidVariable.inj (Except.error.inj h)]
  · intro h
    rw [compile, h]

/-! ## Referring to a variable -/

theorem slot?_get (h : vars.Nodup) (i : Fin vars.length) :
    Term.slot? (vars.get i) vars = some i := by
  induction vars with
  | nil => exact i.elim0
  | cons first vars ih =>
    obtain ⟨hfirst, hnodup⟩ := List.nodup_cons.1 h
    rw [Term.slot?_cons]
    refine i.cases ?_ fun j => ?_
    · exact if_pos rfl
    · rw [if_neg, List.get_cons_succ', ih hnodup j]
      · rfl
      · rintro heq
        exact hfirst (heq ▸ List.get_mem vars j)

/-- **The names that can be declared are those that can be referred to.** A list of variables is
accepted if its names are distinct and each can be referred to; otherwise every compilation fails
for the first name that breaks this. Over an accepted list, the text of a variable compiles, and a
call gives the input of this variable if it is finite. -/
theorem declarable_iff_referable (vars : List String) :
    (badVariable? [] vars = none ↔ vars.Nodup ∧ ∀ name ∈ vars, Referable name) ∧
    (∀ name, badVariable? [] vars = some name ↔
      ∃ before after, vars = before ++ name :: after ∧ before.Nodup ∧
        (∀ other ∈ before, Referable other) ∧ (¬Referable name ∨ name ∈ before)) ∧
    (∀ text stream name, compile text vars stream = .error (.invalidVariable name) ↔
      badVariable? [] vars = some name) ∧
    (badVariable? [] vars = none → ∀ (i : Fin vars.length) stream,
      ∃ f, compile (vars.get i) vars stream = .ok f ∧
        ∀ s inputs (hlength : inputs.length = vars.length),
          (inputs.get (i.cast hlength.symm)).isFinite = true →
            (f.at s).call inputs = (.ok (inputs.get (i.cast hlength.symm)), f.at s)) := by
  refine ⟨accepted_iff, fun name => ?_, fun text stream name => compile_invalidVariable_iff, ?_⟩
  · rw [badVariable?_eq_some_iff]
    simp only [accepted_iff, List.not_mem_nil, false_or, and_assoc]
  · intro hvars i stream
    obtain ⟨hnodup, hreferable⟩ := accepted_iff.1 hvars
    have hread := (hreferable _ (List.get_mem vars i)).read
    refine ⟨_, compile_eq_ok_iff.2 ⟨hvars, _, hread, rfl⟩, fun s inputs hlength hfinite => ?_⟩
    have hresolved : Term.resolve vars (.name (vars.get i)) = .variable i := by
      rw [Term.resolve_name, Term.ofName, slot?_get hnodup i]
    have hcall := @call_eq (Text.trimmed (vars.get i)) vars inputs (.variable i) s hlength
    rw [Term.eval, Machine.checkFinite_of_isFinite hfinite] at hcall
    rw [hresolved]
    exact hcall

/-- Two names, one with a digit, and a call that gives back the second input. -/
theorem declarable_pair :
    badVariable? [] ["t", "_r2"] = none ∧
      ∃ f, compile "_r2" ["t", "_r2"] (.ofSeed 1 1) = .ok f ∧
        ∀ s, (f.at s).call [0.5, -2.0] = (.ok (-2.0), f.at s) := by
  have hvars : badVariable? [] ["t", "_r2"] = none := by decide +kernel
  obtain ⟨-, -, -, hrefer⟩ := declarable_iff_referable ["t", "_r2"]
  obtain ⟨f, hf, hcall⟩ := hrefer hvars 1 (.ofSeed 1 1)
  exact ⟨hvars, f, hf, fun s => hcall s [0.5, -2.0] rfl (by decide +kernel)⟩

/-- A name that has come before is refused where it comes again, in front of what is worse. -/
example : badVariable? [] ["x", "y", "x", "2x"] = some "x" := by decide +kernel

end Formula

end CurveArt
