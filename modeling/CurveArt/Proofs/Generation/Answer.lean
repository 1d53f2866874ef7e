import CurveArt.Proofs.Formula.Scope
import CurveArt.Proofs.Generation.Trace
import CurveArt.Proofs.Settings.Bounds

/-!
# What a generation answers

The stages of a generation fail one after the other, so its answer is decided by the first of them
that does: the check of the settings, the first formula, the second formula. After these only the
points can get lost, and whether they do is a question about the run: is there a step whose point is
still finite after the transformations. It does not matter at which stage a point got lost.

Main results:

* `sampled_value`: sampling answers with the curve of the outcomes, as nothing is left to refuse.
* `points_eq_nil_iff`: when no point is left in the drawing.
* `generate_answer`: the answer for all settings.
-/

namespace CurveArt

open Curve

/-! ## Formulas that do not compile -/

/-- Whether a name was refused as a variable. -/
def CompileError.IsInvalidVariable : CompileError → Prop
  | .invalidVariable _ => True
  | _ => False

theorem ParseTree.ofText_not_invalidVariable {text : String} {cause : CompileError}
    (h : ParseTree.ofText text = .error cause) : ¬cause.IsInvalidVariable := by
  simp only [ParseTree.ofText] at h
  -- each of the four checks has an error of its own, and none of them speaks of variables
  split at h
  · obtain rfl := Except.error.inj h
    exact id
  · split at h
    · obtain rfl := Except.error.inj h
      exact id
    · split at h
      · obtain rfl := Except.error.inj h
        exact id
      · split at h
        · obtain rfl := Except.error.inj h
          exact id
        · cases h

/-- Variables that can be declared are never what keeps a text from compiling. -/
theorem Formula.compile_not_invalidVariable {text : String} {vars : List String}
    {stream : Random.Stream} {cause : CompileError} (hvars : badVariable? [] vars = none)
    (h : compile text vars stream = .error cause) : ¬cause.IsInvalidVariable := by
  rw [compile, hvars] at h
  cases htree : ParseTree.ofText text with
  | error reason =>
    simp only [Expr.ofText, htree, Except.map] at h
    obtain rfl := Except.error.inj h
    exact ParseTree.ofText_not_invalidVariable htree
  | ok tree =>
    simp only [Expr.ofText, htree, Except.map] at h
    cases h

/-- The variables of every style and every sampling can be declared. -/
theorem Settings.badVariable?_vars (s : Settings) : Formula.badVariable? [] s.vars = none := by
  rw [vars]
  split
  · decide
  · cases s.sampling <;> decide

theorem Settings.slots_fst (s : Settings) : s.slots.1 = if s.style = .polar then .r else .f1 := by
  rw [slots]
  split
  · next hstyle => rw [if_pos hstyle]
  · next hstyle => rw [if_neg hstyle]

theorem Settings.slots_snd (s : Settings) :
    s.slots.2 = if s.style = .polar then .theta else .f2 := by
  rw [slots]
  split
  · next hstyle => rw [if_pos hstyle]
  · next hstyle => rw [if_neg hstyle]

/-! ## Faults of a run -/

/-- Whether a fault is one that only a run can show. -/
def GenerationError.IsLate : GenerationError → Prop
  | .allSamplesFailed _ _ => True
  | .noise _ => True
  | _ => False

namespace Generation

variable {s : Settings} {seed : UInt64}

/-- Sampling refuses nothing that has passed the check of the settings. -/
theorem sampled_value (hvalid : s.validate = .ok ()) (first second : Formula) :
    (sampled s first second).value = answer first second
      (ofOutcomes s.style.failurePolicy (place s) (outcomes first second (inputs s))) := by
  obtain ⟨hcount, hdomain, -⟩ := Settings.bounds_of_validate hvalid
  have hturn : inputFault? s.sampleCount none = none := by
    rw [inputFault?, if_neg (Nat.not_lt.2 hcount)]
  have hwalk : s.style ≠ .polar → inputFault? s.sampleCount (some s.domain) = none := by
    intro hstyle
    rw [inputFault?, if_neg (Nat.not_lt.2 hcount)]
    exact if_pos (hdomain hstyle)
  -- style and sampling together choose the inputs and how a pair of values is placed
  cases hstyle : s.style <;> cases hsampling : s.sampling <;>
    simp only [hstyle, ne_eq, reduceCtorEq, not_false_eq_true, forall_const] at hwalk <;>
    simp only [sampled, inputs, place, polar, sweep, grid, hstyle, hsampling, hturn, hwalk,
      sample_value]

theorem formulas_eq_ok_iff {first second : Formula} :
    formulas s seed = .ok (first, second) ↔
      Formula.compile s.f1 s.vars (.ofSeed seed firstStream) = .ok first ∧
        Formula.compile s.f2 s.vars (.ofSeed seed secondStream) = .ok second := by
  rw [formulas]
  split
  · next h => simp [h]
  · next h =>
    split
    · next h' => simp [h, h']
    · next h' => simp [h, h']

namespace Run

variable (r : Run s seed)

/-- No step is left with a finite point, and nothing stands in for it. -/
def Lost : Prop :=
  s.style.failurePolicy = .drop ∧ ∀ k < r.reach, ∀ p, r.image k = some p → p.isFinite = false

/-- The drawing has no point exactly if all are lost, in a sweep that has steps. -/
theorem points_eq_nil_iff (htotal : 0 < r.total) : r.points = [] ↔ r.Lost := by
  have hreach : 0 < r.reach := by
    rw [reach]
    split <;> omega
  have hsteps : r.points = [] ↔ ∀ k < r.reach, k ∉ r.steps := by
    rw [← List.map_eq_nil_iff (f := Stepped.step), List.eq_nil_iff_forall_not_mem]
    refine ⟨fun h k _ => h k, fun h k hk => h k (r.mem_steps.1 hk).1 hk⟩
  rw [hsteps, Lost]
  constructor
  · intro hnone
    -- already the first step would have a point if failures were not dropped
    have hpolicy : s.style.failurePolicy = .drop :=
      ((r.not_mem_steps_iff hreach).1 (hnone 0 hreach)).1
    refine ⟨hpolicy, fun k hk p hp => ?_⟩
    -- a finite image would have stayed
    by_contra hfinite
    refine hnone k hk (r.mem_steps.2 ⟨hk, ?_⟩)
    rw [settledImage, hp, hpolicy, Option.bind_some, Point.settled?,
      if_pos (by simpa using hfinite)]
    rfl
  · rintro ⟨hpolicy, hlost⟩ k hk hmem
    obtain ⟨-, hsome⟩ := r.mem_steps.1 hmem
    rw [settledImage, hpolicy] at hsome
    cases himage : r.image k with
    | none =>
      rw [himage] at hsome
      cases hsome
    | some p =>
      rw [himage, Option.bind_some, Point.settled?, if_neg (by simp [hlost k hk p himage])] at hsome
      cases hsome

/-- What becomes of the sampled curve of a run. -/
theorem ofCurve_value : (ofCurve s seed r.first r.second r.curve).value =
    if r.points = [] then .error (.allSamplesFailed r.first.source r.second.source)
    else .ok r.generation := by
  simp only [ofCurve, r.transformed_eq, r.settle_transformed]
  split
  · next h => rw [if_pos (List.isEmpty_iff.1 h)]
  · next h =>
    rw [if_neg fun hnil => h (List.isEmpty_iff.2 hnil)]
    rfl

/-- A run whose sampling leaves nothing ends with nothing. -/
theorem points_eq_nil_of_curve (h : r.curve.points = []) : r.points = [] := by
  -- the transformations make no point where there was none
  have himage : along r.image r.reach = [] := by
    rw [← List.length_eq_zero_iff, length_along_image, ← curve_points, h]
    simp
  rw [← settle_transformed, himage]
  cases s.style.failurePolicy <;> rfl

/-- The formulas of a run are quoted without the blanks around them. -/
theorem sources : r.first.source = Text.trimmed s.f1 ∧ r.second.source = Text.trimmed s.f2 := by
  obtain ⟨hfirst, hsecond⟩ := formulas_eq_ok_iff.1 r.compiled
  obtain ⟨-, e, -, heq⟩ := Formula.compile_eq_ok_iff.1 hfirst
  obtain ⟨-, e', -, heq'⟩ := Formula.compile_eq_ok_iff.1 hsecond
  rw [heq, heq']
  exact ⟨rfl, rfl⟩

end Run

/-! ## The answer -/

/-- The noise of the points that sampling has left, as the generation draws it. -/
def noiseOf (s : Settings) (seed : UInt64) (first second : Formula) :
    Except Random.DrawError (List Point × Random.Stream) :=
  Transform.noise s.jitter
    (ofOutcomes s.style.failurePolicy (place s) (outcomes first second (inputs s))).points.length
    (.ofSeed seed jitterStream)

/-- Points whose noise cannot be drawn are not transformed. -/
theorem transformed_of_noise {curve : Curve} {cause : Random.DrawError}
    (h : Transform.noise s.jitter curve.points.length (.ofSeed seed jitterStream) = .error cause) :
    transformed s seed curve = .error (.noise cause) := by
  simp only [transformed, Transform.apply, transform, Transform.jittered_eq, List.length_map, h,
    Except.map]

/-- Where the noise cannot be drawn, there are points that need some. -/
theorem points_ne_nil_of_noise {points : List Stepped} {stream : Random.Stream}
    {cause : Random.DrawError} (h : Transform.noise s.jitter points.length stream = .error cause) :
    points ≠ [] := by
  rintro rfl
  rw [Transform.noise] at h
  split at h <;> cases h

/-- The stages behind the two formulas: no curve ends the generation, any other goes on. -/
theorem withSeed_of_compiled (hvalid : s.validate = .ok ()) {first second : Formula}
    (hcompiled : formulas s seed = .ok (first, second)) {curve : Curve}
    (hcurve : curve = ofOutcomes s.style.failurePolicy (place s)
      (outcomes first second (inputs s))) :
    (withSeed s seed).value =
      if curve.points = [] then .error (.allSamplesFailed first.source second.source)
      else (ofCurve s seed first second curve).value := by
  have hsampled := sampled_value hvalid first second
  rw [← hcurve, answer] at hsampled
  simp only [withSeed, hvalid, hcompiled]
  -- of the two ways in which sampling can end, the curve decides which one it is
  split
  · next hfault =>
    rw [hsampled] at hfault
    split at hfault
    · next hnil =>
      obtain rfl := Except.error.inj hfault
      rw [if_pos hnil]
    · cases hfault
  · next found hfound =>
    rw [hsampled] at hfound
    split at hfound
    · cases hfound
    · next hne => rw [if_neg hne, Except.ok.inj hfound]

/-- A generation that gives a drawing has passed the check of its settings. -/
theorem validate_of_withSeed {g : Generation} (h : (withSeed s seed).value = .ok g) :
    s.validate = .ok () := by
  cases hvalid : s.validate with
  | error fault =>
    simp only [withSeed, hvalid] at h
    cases h
  | ok _ => rfl

/-- A generation of valid settings comes to what any run of them says. -/
theorem Run.value_eq (r : Run s seed) (hvalid : s.validate = .ok ()) :
    (withSeed s seed).value =
      if r.points = [] then .error (.allSamplesFailed r.first.source r.second.source)
      else .ok r.generation := by
  rw [withSeed_of_compiled hvalid r.compiled rfl]
  -- whether points are lost while sampling or later, none are left
  by_cases hnil : r.curve.points = []
  · rw [if_pos (r.points_eq_nil_of_curve hnil)]
    exact if_pos hnil
  · rw [← r.ofCurve_value]
    exact if_neg hnil

/-- What a generation of valid settings answers once both formulas have compiled: noise that cannot
be drawn, or what is left of a run. -/
theorem withSeed_value (hvalid : s.validate = .ok ()) {first second : Formula}
    (hcompiled : formulas s seed = .ok (first, second)) :
    (∃ cause, noiseOf s seed first second = .error cause ∧
        (withSeed s seed).value = .error (.noise cause)) ∨
      ∃ r : Run s seed, r.first = first ∧ r.second = second ∧
        (withSeed s seed).value =
          if r.points = [] then .error (.allSamplesFailed r.first.source r.second.source)
          else .ok r.generation := by
  cases hnoise : noiseOf s seed first second with
  | error cause =>
    refine .inl ⟨cause, rfl, ?_⟩
    rw [withSeed_of_compiled hvalid hcompiled rfl, if_neg (points_ne_nil_of_noise hnoise)]
    simp only [ofCurve, transformed_of_noise hnoise]
  | ok drawn =>
    -- with its noise the generation is a run, whether or not sampling leaves anything
    let r : Run s seed := ⟨first, second, hcompiled, drawn.1, drawn.2, hnoise⟩
    exact .inr ⟨r, rfl, rfl, r.value_eq hvalid⟩

/-- The check of the settings never answers what only later stages find out. -/
theorem validate_error {fault : GenerationError} (h : s.validate = .error fault) :
    ¬fault.IsLate := by
  simp only [Settings.validate] at h
  -- each check names the setting that it refuses
  repeat' split at h
  all_goals
    first
    | (obtain rfl := Except.error.inj h; exact id)
    | cases h

/-- What is answered for two formulas that have compiled: the drawing of a run of them, unless
nothing is left of that, and unless its noise could not be drawn. -/
def AnswersRun (s : Settings) (seed : UInt64) (first second : Formula)
    (value : Except GenerationError Generation) : Prop :=
  (∃ cause, noiseOf s seed first second = .error cause ∧ value = .error (.noise cause)) ∨
    ∃ r : Run s seed, r.first = first ∧ r.second = second ∧
      ((r.Lost ∧ value = .error (.allSamplesFailed (Text.trimmed s.f1) (Text.trimmed s.f2))) ∨
        (¬r.Lost ∧ value = .ok r.generation))

theorem withSeed_answersRun (hvalid : s.validate = .ok ()) {first second : Formula}
    (hcompiled : formulas s seed = .ok (first, second)) :
    AnswersRun s seed first second (withSeed s seed).value := by
  refine (withSeed_value hvalid hcompiled).imp_right fun ⟨r, hfirst, hsecond, hvalue⟩ => ?_
  -- settings that pass ask for more than one sample
  have htotal : 0 < r.total := by
    have hcount := (Settings.bounds_of_validate hvalid).1
    rw [r.total_eq]
    exact Nat.lt_of_lt_of_le (by decide) hcount
  rw [r.sources.1, r.sources.2] at hvalue
  refine ⟨r, hfirst, hsecond, ?_⟩
  by_cases hlost : r.Lost
  · exact .inl ⟨hlost, hvalue.trans (if_pos ((r.points_eq_nil_iff htotal).2 hlost))⟩
  · exact .inr ⟨hlost, hvalue.trans (if_neg (mt (r.points_eq_nil_iff htotal).1 hlost))⟩

/-- The answer, stage by stage. -/
theorem withSeed_stages (s : Settings) (seed : UInt64) :
    match s.validate with
    | .error fault => (withSeed s seed).value = .error fault
    | .ok () =>
      match Formula.compile s.f1 s.vars (.ofSeed seed firstStream) with
      | .error cause =>
        (withSeed s seed).value = .error (.compile (if s.style = .polar then .r else .f1) cause) ∧
          ¬cause.IsInvalidVariable
      | .ok first =>
        match Formula.compile s.f2 s.vars (.ofSeed seed secondStream) with
        | .error cause =>
          (withSeed s seed).value =
              .error (.compile (if s.style = .polar then .theta else .f2) cause) ∧
            ¬cause.IsInvalidVariable
        | .ok second => AnswersRun s seed first second (withSeed s seed).value := by
  cases hvalid : s.validate with
  | error fault => simp only [withSeed, hvalid]
  | ok _ =>
    cases hfirst : Formula.compile s.f1 s.vars (.ofSeed seed firstStream) with
    | error cause =>
      refine ⟨?_, Formula.compile_not_invalidVariable s.badVariable?_vars hfirst⟩
      simp only [withSeed, hvalid, formulas, hfirst, Settings.slots_fst]
    | ok first =>
      cases hsecond : Formula.compile s.f2 s.vars (.ofSeed seed secondStream) with
      | error cause =>
        refine ⟨?_, Formula.compile_not_invalidVariable s.badVariable?_vars hsecond⟩
        simp only [withSeed, hvalid, formulas, hfirst, hsecond, Settings.slots_snd]
      | ok second => exact withSeed_answersRun hvalid (formulas_eq_ok_iff.2 ⟨hfirst, hsecond⟩)

/-- Points that a zero stands in for are never lost. -/
theorem withSeed_ne_allSamplesFailed (hpolicy : s.style.failurePolicy = .zero)
    (first second : String) :
    (withSeed s seed).value ≠ .error (.allSamplesFailed first second) := by
  intro h
  have hstages := withSeed_stages s seed
  rw [h] at hstages
  -- only a run that is lost answers so, and under this policy no run is
  split at hstages
  · next fault hvalid =>
    rw [← Except.error.inj hstages] at hvalid
    exact validate_error hvalid trivial
  · split at hstages
    · cases hstages.1
    · split at hstages
      · cases hstages.1
      · rcases hstages with ⟨cause, -, hnoise⟩ | ⟨r, -, -, ⟨hlost, -⟩ | ⟨-, hok⟩⟩
        · cases hnoise
        · rw [hlost.1] at hpolicy
          cases hpolicy
        · cases hok

/-- Sampling never refuses what has passed the check of the settings. -/
theorem sampled_error (hvalid : s.validate = .ok ()) {first second : Formula}
    {fault : GenerationError} (h : (sampled s first second).value = .error fault) :
    fault = .allSamplesFailed first.source second.source := by
  rw [sampled_value hvalid, answer] at h
  split at h
  · exact (Except.error.inj h).symm
  · cases h

/-- **What a generation answers.** Settings out of range are reported whatever the formulas are,
then the first formula that does not compile, in its own place. A drawing of two formulas that do
compile is lost exactly if failures are dropped and no step of the run keeps a finite point; in all
other runs there is a drawing. Sampling never refuses what has passed the check of the settings, and
a curve that runs through is never lost. -/
theorem generate_answer (s : Settings) (drawn : UInt64) :
    let seed := s.seed.getD drawn
    let value := (generate s drawn).value
    (match s.validate with
      | .error fault => value = .error fault
      | .ok () =>
        match Formula.compile s.f1 s.vars (.ofSeed seed firstStream) with
        | .error cause =>
          value = .error (.compile (if s.style = .polar then .r else .f1) cause) ∧
            ¬cause.IsInvalidVariable
        | .ok first =>
          match Formula.compile s.f2 s.vars (.ofSeed seed secondStream) with
          | .error cause =>
            value = .error (.compile (if s.style = .polar then .theta else .f2) cause) ∧
              ¬cause.IsInvalidVariable
          | .ok second => AnswersRun s seed first second value) ∧
    (s.validate = .ok () → ∀ first second fault,
      (sampled s first second).value = .error fault →
        fault = .allSamplesFailed first.source second.source) ∧
    (s.style = .connectedLine ∨ s.style = .polar →
      ∀ first second, value ≠ .error (.allSamplesFailed first second)) := by
  intro seed value
  refine ⟨withSeed_stages s seed, fun hvalid first second fault => sampled_error hvalid, ?_⟩
  intro hstyle first second
  refine withSeed_ne_allSamplesFailed ?_ first second
  rcases hstyle with hstyle | hstyle <;> rw [hstyle] <;> rfl

end Generation

end CurveArt
