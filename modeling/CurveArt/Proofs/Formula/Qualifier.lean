import CurveArt.Proofs.Formula.Binding

/-!
# Names behind the qualifier

A function or a constant of the vocabulary may be written with the qualifier in front of it or
without, at every place anew: looking names up comes to the same term, so nothing that is evaluated
can tell the difference. The qualifier is no operation on names, though. It stands in front of a name
of the vocabulary once or the name is foreign, and a foreign name with points in it is never a
variable either, since no variable has points.

Main results:

* `Term.resolve_requalified`: expressions that differ in qualifiers are resolved to the same term.
* `Expr.IsForeignPath.fails`: a dotted name outside the vocabulary fails wherever it is reached.
* `Formula.qualifier_transparent`: both facts about compiled formulas.
-/

namespace CurveArt

/-! ## Expressions that differ in qualifiers -/

/-- The two ways to write a name of the vocabulary. -/
def spellings (bare : String) : List String :=
  [bare, "math." ++ bare]

theorem mem_spellings {word bare : String} :
    word ∈ spellings bare ↔ word = bare ∨ word = "math." ++ bare := by
  simp [spellings]

namespace Expr

mutual

/-- The second expression is the first one with the qualifier put in front of some names and taken
away from others: from functions where they are called and from constants where they are named. -/
inductive Requalified : Expr → Expr → Prop
  | number (value : Float) : Requalified (.number value) (.number value)
  | name (word : String) : Requalified (.name word) (.name word)
  | constant {c : String × Float} {word word' : String} (hc : c ∈ constants)
      (hword : word ∈ spellings c.1) (hword' : word' ∈ spellings c.1) :
      Requalified (.name word) (.name word')
  | call {arguments arguments' : List Expr} (function : String)
      (harguments : RequalifiedAll arguments arguments') :
      Requalified (.call function arguments) (.call function arguments')
  | builtin {function function' : String} {arguments arguments' : List Expr} (b : Builtin)
      (hfunction : function ∈ spellings b.name) (hfunction' : function' ∈ spellings b.name)
      (harguments : RequalifiedAll arguments arguments') :
      Requalified (.call function arguments) (.call function' arguments')
  | signed {operand operand' : Expr} (sign : Sign) (hoperand : Requalified operand operand') :
      Requalified (.signed sign operand) (.signed sign operand')
  | binary {left left' right right' : Expr} (op : BinaryOp) (hleft : Requalified left left')
      (hright : Requalified right right') :
      Requalified (.binary op left right) (.binary op left' right')

inductive RequalifiedAll : List Expr → List Expr → Prop
  | nil : RequalifiedAll [] []
  | cons {e e' : Expr} {rest rest' : List Expr} (he : Requalified e e')
      (hrest : RequalifiedAll rest rest') : RequalifiedAll (e :: rest) (e' :: rest')

end

end Expr

namespace Term

variable {vars : List String} {word word' function function' : String}
  {arguments arguments' : List Expr}

/-- The term of a call of a known function. -/
def ofCall {n : Nat} : Builtin → List (Term n) → Term n
  | .random, [] => .random
  | .real f, [argument] => .apply f argument
  | b, arguments => .wrongArity b arguments.length

/-- Of a known function and its arguments, resolving a call keeps neither name nor spelling. -/
theorem resolve_known {b : Builtin} (h : Builtin.ofName? (unqualified function) = some b) :
    resolve vars (.call function arguments) = ofCall b (arguments.map (resolve vars)) := by
  unfold resolve
  rw [h]
  cases b with
  | random =>
    rcases arguments with _ | ⟨first, rest⟩
    · rfl
    · simp [ofCall]
  | real f =>
    rcases arguments with _ | ⟨first, _ | ⟨second, rest⟩⟩
    · rfl
    · rfl
    · simp [ofCall]

theorem resolve_call_congr (h : arguments.map (resolve vars) = arguments'.map (resolve vars)) :
    resolve vars (.call function arguments) = resolve vars (.call function arguments') := by
  cases hname : Builtin.ofName? (unqualified function) with
  | none => rw [resolve_unknown vars hname, resolve_unknown vars hname]
  | some b => rw [resolve_known hname, resolve_known hname, h]

/-- No variable has the name of a constant, with or without the qualifier. -/
theorem slot?_of_spelling (hvars : Formula.badVariable? [] vars = none) {c : String × Float}
    (hc : c ∈ constants) (hword : word ∈ spellings c.1) : slot? word vars = none := by
  obtain ⟨-, hreferable⟩ := Formula.accepted_iff.1 hvars
  rw [← Option.not_isSome_iff_eq_none, slot?_isSome]
  intro hmem
  have hname := hreferable word hmem
  rcases mem_spellings.1 hword with rfl | rfl
  · exact hname.not_constant c hc rfl
  · exact hname.no_point (point_mem_qualified c.1)

theorem ofName_congr (hvars : Formula.badVariable? [] vars = none) {c : String × Float}
    (hc : c ∈ constants) (hword : word ∈ spellings c.1) (hword' : word' ∈ spellings c.1) :
    ofName vars word = ofName vars word' := by
  have hfree := constants_no_point c hc
  obtain ⟨value, hvalue⟩ := Option.isSome_iff_exists.1 (constant?_isSome.2 ⟨c, hc, rfl⟩)
  have hbare := (unqualified_eq_iff hfree).2 (mem_spellings.1 hword)
  have hbare' := (unqualified_eq_iff hfree).2 (mem_spellings.1 hword')
  rw [ofName, ofName, slot?_of_spelling hvars hc hword, slot?_of_spelling hvars hc hword', hbare,
    hbare', hvalue]

mutual

/-- **Qualifiers leave no trace.** Expressions that differ in qualifiers are resolved to one
term. -/
theorem resolve_requalified (hvars : Formula.badVariable? [] vars = none) :
    {e e' : Expr} → e.Requalified e' → resolve vars e = resolve vars e'
  | _, _, .number _ | _, _, .name _ => rfl
  | _, _, .constant hc hword hword' => ofName_congr hvars hc hword hword'
  | _, _, .call _ harguments => resolve_call_congr (resolve_requalifiedAll hvars harguments)
  | _, _, .builtin _ hfunction hfunction' harguments => by
    have hname := Builtin.ofName?_unqualified.2 (mem_spellings.1 hfunction)
    have hname' := Builtin.ofName?_unqualified.2 (mem_spellings.1 hfunction')
    rw [resolve_known hname, resolve_known hname', resolve_requalifiedAll hvars harguments]
  | _, _, .signed sign hoperand => by
    have hsame := resolve_requalified hvars hoperand
    cases sign with
    | plus => exact hsame
    | minus => exact congrArg Term.negate hsame
  | _, _, .binary op hleft hright =>
    congrArg₂ (Term.binary op) (resolve_requalified hvars hleft) (resolve_requalified hvars hright)

theorem resolve_requalifiedAll (hvars : Formula.badVariable? [] vars = none) :
    {es es' : List Expr} → Expr.RequalifiedAll es es' →
      es.map (resolve vars) = es'.map (resolve vars)
  | _, _, .nil => rfl
  | _, _, .cons he hrest =>
    congrArg₂ List.cons (resolve_requalified hvars he) (resolve_requalifiedAll hvars hrest)

end

end Term

/-! ## Other names with points -/

namespace Expr

/-- A name with points in it that is no name of the vocabulary behind the qualifier: of no constant
where it is named, of no function where it is called. -/
def IsForeignPath : Expr → Prop
  | .name word => '.' ∈ word.toList ∧ ∀ c ∈ constants, word ≠ "math." ++ c.1
  | .call function _ => '.' ∈ function.toList ∧ ∀ b : Builtin, function ≠ "math." ++ b.name
  | _ => False

variable {vars : List String} {part : Expr} {word function : String} {arguments : List Expr}

/-- A name with points is neither a variable nor a bare name of the vocabulary. -/
theorem IsForeignPath.not_fits (h : part.IsForeignPath)
    (hvars : Formula.badVariable? [] vars = none) : ¬part.Fits vars := by
  obtain ⟨-, hreferable⟩ := Formula.accepted_iff.1 hvars
  cases part with
  | name word =>
    obtain ⟨hdotted, hother⟩ := h
    rintro (hmem | ⟨c, hc, rfl | hword⟩)
    · exact (hreferable word hmem).no_point hdotted
    · exact constants_no_point c hc hdotted
    · exact hother c hc hword
  | call function arguments =>
    obtain ⟨hdotted, hother⟩ := h
    rintro ⟨b, rfl | hfunction, -⟩
    · exact b.no_point hdotted
    · exact hother b hfunction
  | number | signed | binary => exact h.elim

/-- A foreign name fails where it is evaluated, and tells itself. -/
theorem IsForeignPath.eval_name (h : (name word).IsForeignPath)
    (hvars : Formula.badVariable? [] vars = none) (inputs : Fin vars.length → Float)
    (s : Random.Stream) :
    (Term.resolve vars (.name word)).eval inputs s = (.error (.unknownName word), s) := by
  have hfits := h.not_fits hvars
  rw [Fits, ← Term.slot?_isSome, ← constant?_unqualified] at hfits
  obtain ⟨hslot, hconstant⟩ := not_or.1 hfits
  rw [Option.not_isSome_iff_eq_none] at hslot hconstant
  rw [Term.resolve_name, Term.ofName, hslot, hconstant, Term.eval]

/-- A call of a foreign function fails before any of its arguments is evaluated. -/
theorem IsForeignPath.eval_call (h : (call function arguments).IsForeignPath)
    (inputs : Fin vars.length → Float) (s : Random.Stream) :
    (Term.resolve vars (.call function arguments)).eval inputs s =
      (.error (.unknownFunction function), s) := by
  obtain ⟨hdotted, hother⟩ := h
  have hnone : Builtin.ofName? (unqualified function) = none := by
    cases hname : Builtin.ofName? (unqualified function) with
    | none => rfl
    | some b =>
      rcases Builtin.ofName?_unqualified.1 hname with rfl | heq
      · exact absurd hdotted b.no_point
      · exact absurd heq (hother b)
  rw [Term.resolve_unknown vars hnone, Term.eval]

/-- A word in the place of a name or of a function is foreign. -/
def IsForeignWord (word : String) : Prop :=
  (name word).IsForeignPath ∧ ∀ arguments, (call word arguments).IsForeignPath

/-- Behind the qualifier, what is no bare name of the vocabulary makes a foreign word. -/
theorem isForeignWord_qualified {rest : String} (hconstant : ∀ c ∈ constants, rest ≠ c.1)
    (hbuiltin : ∀ b : Builtin, rest ≠ b.name) : IsForeignWord ("math." ++ rest) := by
  have hdotted := point_mem_qualified rest
  have hcancel : ∀ bare : String, "math." ++ rest = "math." ++ bare → rest = bare := by
    intro bare h
    rw [← String.toList_inj, toList_qualified, toList_qualified] at h
    exact String.toList_inj.1 (List.append_cancel_left h)
  exact ⟨⟨hdotted, fun c hc h => hconstant c hc (hcancel c.1 h)⟩,
    fun _ => ⟨hdotted, fun b h => hbuiltin b (hcancel b.name h)⟩⟩

theorem isForeignWord_twice (bare : String) : IsForeignWord ("math." ++ ("math." ++ bare)) := by
  have hdotted := point_mem_qualified bare
  exact isForeignWord_qualified (fun c hc h => constants_no_point c hc (h ▸ hdotted))
    fun b h => b.no_point (h ▸ hdotted)

theorem isForeignWord_variable (hvars : Formula.badVariable? [] vars = none) {v : String}
    (hv : v ∈ vars) : IsForeignWord ("math." ++ v) :=
  have hname := (Formula.accepted_iff.1 hvars).2 v hv
  isForeignWord_qualified hname.not_constant hname.not_builtin

/-- Anything else that stands before a point makes a foreign word. -/
theorem isForeignWord_other {other : String} (hother : other ≠ "math") (bare : String) :
    IsForeignWord (other ++ "." ++ bare) := by
  have htext : (other ++ "." ++ bare).toList = other.toList ++ '.' :: bare.toList := by
    rw [String.toList_append, String.toList_append, List.append_assoc]
    rfl
  have hne : ∀ name : String, '.' ∉ name.toList → other ++ "." ++ bare ≠ "math." ++ name := by
    intro name hname h
    rw [← String.toList_inj, htext, toList_qualified] at h
    -- a name of the vocabulary behind the qualifier has one point only
    have hsplit : "math".toList ++ '.' :: name.toList = other.toList ++ '.' :: bare.toList := h.symm
    obtain ⟨hfront, -, -⟩ := (List.append_cons_inj_of_notMem (by decide) hname).1 hsplit
    exact hother (String.toList_inj.1 hfront.symm)
  have hdotted : '.' ∈ (other ++ "." ++ bare).toList := by
    rw [htext]
    exact List.mem_append_right _ List.mem_cons_self
  exact ⟨⟨hdotted, fun c hc => hne c.1 (constants_no_point c hc)⟩,
    fun _ => ⟨hdotted, fun b => hne b.name b.no_point⟩⟩

end Expr

/-! ## Formulas with and without qualifiers -/

namespace Formula

variable {vars : List String} {e e' : Expr}

/-- Calls of formulas over one list of variables are alike if their bodies are the same. -/
theorem alike_of_body {body body' : Term vars.length} (h : body = body') (source source' : String)
    (s : Random.Stream) (inputs : List Float) :
    Alike (call ⟨source', vars, body', s⟩ inputs) (call ⟨source, vars, body, s⟩ inputs) := by
  subst h
  by_cases hlength : inputs.length = vars.length
  · rw [call_eq hlength, call_eq hlength]
    exact ⟨rfl, rfl⟩
  · rw [call_of_length_ne hlength, call_of_length_ne hlength]
    exact ⟨rfl, rfl⟩

/-- What the qualifier does over a list of variables: nothing in front of a name of the vocabulary,
and anything else with points is foreign. -/
structure QualifierTransparent (vars : List String) : Prop where
  /-- Formulas of two expressions that differ in qualifiers give the same value or error and leave
  the same stream. -/
  alike : ∀ e e' : Expr, e.Requalified e' → ∀ source source' s inputs,
    Alike (call ⟨source', vars, Term.resolve vars e', s⟩ inputs)
      (call ⟨source, vars, Term.resolve vars e, s⟩ inputs)
  /-- So do formulas that are compiled from texts of such expressions. -/
  compiled : ∀ text text' e e', Expr.ofText text = .ok e → Expr.ofText text' = .ok e' →
    e.Requalified e' → ∀ stream, ∃ f f', compile text vars stream = .ok f ∧
      compile text' vars stream = .ok f' ∧
      ∀ s inputs, Alike ((f'.at s).call inputs) ((f.at s).call inputs)
  foreignName : ∀ word, (Expr.name word).IsForeignPath → ∀ inputs s,
    (Term.resolve vars (.name word)).eval inputs s = (.error (.unknownName word), s)
  foreignFunction : ∀ function arguments, (Expr.call function arguments).IsForeignPath →
    ∀ inputs s, (Term.resolve vars (.call function arguments)).eval inputs s =
      (.error (.unknownFunction function), s)
  /-- With a foreign name anywhere in it, a formula fails at all inputs. -/
  foreignInside : ∀ text e (part : Expr), Expr.ofText text = .ok e → part.Occurs e →
    part.IsForeignPath → ∀ stream f, compile text vars stream = .ok f → ∀ s inputs,
      ∃ cause, ((f.at s).call inputs).1 = .error cause
  foreignTwice : ∀ bare, Expr.IsForeignWord ("math." ++ ("math." ++ bare))
  foreignVariable : ∀ v ∈ vars, Expr.IsForeignWord ("math." ++ v)
  foreignOther : ∀ other bare, other ≠ "math" → Expr.IsForeignWord (other ++ "." ++ bare)

/-- **The qualifier is transparent** in front of names of the vocabulary, and nowhere else. -/
theorem qualifier_transparent (hvars : badVariable? [] vars = none) :
    QualifierTransparent vars := by
  have halike : ∀ e e' : Expr, e.Requalified e' → ∀ source source' s inputs,
      Alike (call ⟨source', vars, Term.resolve vars e', s⟩ inputs)
        (call ⟨source, vars, Term.resolve vars e, s⟩ inputs) :=
    fun e e' h => alike_of_body (Term.resolve_requalified hvars h)
  constructor
  case alike => exact halike
  case compiled =>
    intro text text' e e' hread hread' h stream
    exact ⟨_, _, compile_eq_ok_iff.2 ⟨hvars, e, hread, rfl⟩,
      compile_eq_ok_iff.2 ⟨hvars, e', hread', rfl⟩, fun s => halike e e' h _ _ s⟩
  case foreignName => exact fun word h => h.eval_name hvars
  case foreignFunction => exact fun function arguments h => h.eval_call
  case foreignInside =>
    intro text e part hread hoccurs hforeign stream f hf s inputs
    obtain ⟨-, e', hread', rfl⟩ := compile_eq_ok_iff.1 hf
    obtain rfl := Except.ok.inj (hread.symm.trans hread')
    cases hcall : (Formula.call _ inputs).1 with
    | error cause => exact ⟨cause, rfl⟩
    | ok value =>
      -- a value needs every place to fit
      have hin : e.InVocabulary vars := Term.resolve_closed_iff.1 (closed_of_call hcall)
      exact absurd (hin part hoccurs) (hforeign.not_fits hvars)
  case foreignTwice => exact Expr.isForeignWord_twice
  case foreignVariable => exact fun v => Expr.isForeignWord_variable hvars
  case foreignOther => exact fun other bare h => Expr.isForeignWord_other h bare

/-- A variable with the name of the qualifier captures nothing: behind it a constant stays one, and
the qualifier moves freely from the constant to the function. -/
theorem qualifier_transparent_math :
    badVariable? [] ["math", "x"] = none ∧ QualifierTransparent ["math", "x"] ∧
      (∃ f f', compile "pi" ["math", "x"] (.ofSeed 1 1) = .ok f ∧
        compile "math.pi" ["math", "x"] (.ofSeed 1 1) = .ok f' ∧
        ∀ s inputs, Alike ((f'.at s).call inputs) ((f.at s).call inputs)) ∧
      ∀ source source' s inputs, Alike
        (call ⟨source', ["math", "x"], Term.resolve ["math", "x"]
          (.binary .plus (.call "math.sin" [.name "math"]) (.name "pi")), s⟩ inputs)
        (call ⟨source, ["math", "x"], Term.resolve ["math", "x"]
          (.binary .plus (.call "sin" [.name "math"]) (.name "math.pi")), s⟩ inputs) := by
  have hvars : badVariable? [] ["math", "x"] = none := by decide +kernel
  have htransparent := qualifier_transparent hvars
  have hpi : ("pi", 3.141592653589793) ∈ constants := List.mem_cons_self
  -- a name with one point is read as one, as the words on both sides of it are
  obtain ⟨-, hread⟩ := isPlainName_iff.1 (show isPlainName "pi" = true by decide +kernel)
  obtain ⟨hfree, hmath⟩ := isPlainName_iff.1 (show isPlainName "math" = true by decide +kernel)
  have hqualifier := Spelling.isWord_iff.2 ⟨Expr.ofText_eq_name_iff.1 hmath, hfree⟩
  have hread' : Expr.ofText "math.pi" = .ok (.name "math.pi") :=
    Expr.ofText_eq_name_iff.2 (.dotted hqualifier (Expr.ofText_eq_name_iff.1 hread))
  refine ⟨hvars, htransparent, htransparent.compiled _ _ _ _ hread hread'
    (.constant hpi (by decide) (by decide)) (.ofSeed 1 1), htransparent.alike _ _ ?_⟩
  refine .binary .plus ?_ (.constant hpi (by decide) (by decide))
  exact .builtin (.real .sin) (by decide) (by decide) (.cons (.name "math") .nil)

end Formula

end CurveArt
