import CurveArt.CommandLine.Overrides
import Mathlib.Data.List.Perm.Basic

/-!
# What flags do to settings

Overrides are applied in twenty steps, one after the other, and each of them touches one field. Only
the sampling is touched twice: presets turn grid sampling on, and a sampling that is given comes
later. So a field is what is given for it and otherwise what it was, whatever else is given, and the
steps may come in any order in which these two stay apart.

Flags are arguments before they are overrides. Their order on a command line does not matter either,
but for flags that take each other back, of which the last one is left.

Main results:

* `Arguments.ofWords_induction`: what every item keeps holds of the arguments that words make.
* `Arguments.ofWords_revoked`: no flag is left with one that takes it back.
* `Overrides.get_run`: what a field is after all steps, in any admissible order.
* `Overrides.ofArguments_precedence`: flags have precedence over settings, field by field.
* `Overrides.Precedence.mirror_eq_last`: of the flags for mirroring the last word counts.
-/

namespace CurveArt

/-! ## The flags for mirroring -/

/-- The flag that turns mirroring on or off. -/
def Flag.mirroring : Bool → Flag
  | true => .mirror
  | false => .noMirror

/-- The two flags take each other back, and no others take them back. -/
theorem Flag.mirroring_mem_revokes_iff {flag : Flag} {on : Bool} :
    Flag.mirroring on ∈ flag.revokes ↔ flag = Flag.mirroring (!on) := by
  cases flag <;> cases on <;> decide

namespace Item

variable {item : Item} {on : Bool}

/-- What an item says on mirroring. -/
def mirroring? : Item → Option Bool
  | .given .mirror _ => some true
  | .given .noMirror _ => some false
  | _ => none

/-- What the last item says that says anything on mirroring. -/
def lastMirroring? (items : List Item) : Option Bool :=
  (items.filterMap mirroring?).getLast?

theorem mirroring?_given (on : Bool) (values : List String) :
    (given (.mirroring on) values).mirroring? = some on := by
  cases on <;> rfl

theorem exists_of_mirroring? (h : item.mirroring? = some on) :
    ∃ values, item = .given (.mirroring on) values := by
  unfold mirroring? at h
  split at h
  · obtain rfl := Option.some.inj h
    exact ⟨_, rfl⟩
  · obtain rfl := Option.some.inj h
    exact ⟨_, rfl⟩
  · cases h

theorem lastMirroring?_append (items : List Item) (item : Item) :
    lastMirroring? (items ++ [item]) = item.mirroring?.or (lastMirroring? items) := by
  rw [lastMirroring?, List.filterMap_append, List.getLast?_append]
  cases h : item.mirroring? with
  | none =>
    rw [List.filterMap_cons_none h]
    rfl
  | some on =>
    rw [List.filterMap_cons_some h]
    rfl

end Item

/-! ## Flags that take each other back -/

namespace Arguments

variable {a b : Arguments} {flag : Flag} {values : List String} {room : Nat} {item : Item}
  {items : List Item} {flags : List Flag} {words : List String} {on : Bool}

/-- No flag is there with one that it takes back. -/
def Unrevoked (a : Arguments) : Prop :=
  ∀ flag other, other ∈ flag.revokes → a.has flag = true → a.has other = false

theorem has_iff : a.has flag = true ↔ ∃ g ∈ a.given, g.flag = flag := by
  simp [has]

/-- Flags take each other back. -/
theorem mem_revokes_comm {flag other : Flag} (h : other ∈ flag.revokes) : flag ∈ other.revokes := by
  cases flag <;> simp_all [Flag.revokes]

theorem not_mem_revokes (flag : Flag) : flag ∉ flag.revokes := by
  cases flag <;> decide

/-- What is there after a flag: the flag itself, and the others but for those that it takes back. -/
theorem has_of_give? (h : a.give? flag values = some b) (other : Flag) :
    b.has other = true ↔ other = flag ∨ (a.has other = true ∧ other ∉ flag.revokes) := by
  unfold give? at h
  split at h
  · cases h
  · split at h
    · cases h
    · obtain rfl := Option.some.inj h
      simp only [has_iff, List.mem_append, List.mem_filter, List.mem_singleton]
      constructor
      · rintro ⟨g, ⟨hg, hkept⟩ | rfl, rfl⟩
        · exact .inr ⟨⟨g, hg, rfl⟩, by simpa using hkept⟩
        · exact .inl rfl
      · rintro (rfl | ⟨⟨g, hg, rfl⟩, hkept⟩)
        · exact ⟨_, .inr rfl, rfl⟩
        · exact ⟨g, .inl ⟨hg, by simpa using hkept⟩, rfl⟩

theorem Unrevoked.give? (ha : a.Unrevoked) (h : a.give? flag values = some b) : b.Unrevoked := by
  intro first second hrevokes hfirst
  rw [Bool.eq_false_iff, ne_eq, has_of_give? h]
  rw [has_of_give? h] at hfirst
  -- the new flag revokes others, and those that revoke it are revoked by it
  rintro (rfl | ⟨hsecond, hkept⟩)
  · rcases hfirst with rfl | ⟨-, hkept⟩
    · exact not_mem_revokes _ hrevokes
    · exact hkept (mem_revokes_comm hrevokes)
  · rcases hfirst with rfl | ⟨hfirst, -⟩
    · exact hkept hrevokes
    · exact Bool.false_ne_true ((ha first second hrevokes hfirst).symm.trans hsecond)

/-- What an item makes of arguments: a flag is given, or the flags stay as they are. -/
theorem add_eq_ok (h : a.add room item = .ok b) :
    (∃ flag values, item = .given flag values ∧ a.give? flag values = some b) ∨
      ((∃ text, item = .operand text) ∧ b.given = a.given) := by
  unfold add at h
  split at h
  · cases h
  · cases h
  · split at h
    · rename_i hgive
      obtain rfl := Except.ok.inj h
      exact .inl ⟨_, _, rfl, hgive⟩
    · cases h
  · split at h
    · obtain rfl := Except.ok.inj h
      exact .inr ⟨⟨_, rfl⟩, rfl⟩
    · cases h

section Induction

variable {P : List Item → Arguments → Prop}

/-- What every item keeps holds after all items, of these and of those that came before. -/
theorem foldlM_add (hadd : ∀ {items item a b}, P items a → a.add room item = .ok b →
    P (items ++ [item]) b) {items done : List Item} (ha : P done a)
    (h : items.foldlM (add room) a = .ok b) : P (done ++ items) b := by
  -- item by item, what is still to come moves over to what is done
  induction items generalizing a done with
  | nil =>
    obtain rfl := Except.ok.inj h
    rwa [List.append_nil]
  | cons item items ih =>
    rw [List.foldlM_cons] at h
    cases hitem : a.add room item with
    | error stop =>
      rw [hitem] at h
      cases h
    | ok next =>
      rw [hitem] at h
      rw [List.append_cons]
      exact ih (hadd ha hitem) h

/-- **What every item keeps holds of the arguments that words make**, and of the items in them. -/
theorem ofWords_induction (hempty : P [] empty)
    (hadd : ∀ {items item a b}, P items a → a.add room item = .ok b → P (items ++ [item]) b)
    (h : ofWords flags room words = .ok a) : P (Item.ofWords flags words).1 a := by
  unfold ofWords at h
  dsimp only [bind, Except.bind] at h
  split at h
  · cases h
  · rename_i read hread
    split at h
    · obtain rfl := Except.ok.inj h
      exact foldlM_add hadd hempty hread
    · cases h

end Induction

theorem Unrevoked.add (ha : a.Unrevoked) (h : a.add room item = .ok b) : b.Unrevoked := by
  rcases add_eq_ok h with ⟨flag, values, -, hgive⟩ | ⟨-, hgiven⟩
  · exact ha.give? hgive
  · unfold Unrevoked has
    rw [hgiven]
    exact ha

/-- **No flag is left with one that takes it back.** -/
theorem ofWords_revoked (h : ofWords flags room words = .ok a) : a.Unrevoked :=
  ofWords_induction (P := fun _ a => a.Unrevoked) (fun _ _ _ hhas => absurd hhas Bool.false_ne_true)
    Unrevoked.add h

/-! ### Mirroring -/

/-- The flag of the last word on mirroring is there, and without any word neither of the two is. That
the other one is not there either follows from `Unrevoked`. -/
structure Mirroring (items : List Item) (a : Arguments) : Prop where
  has_last : ∀ on, Item.lastMirroring? items = some on → a.has (.mirroring on) = true
  given : ∀ on, a.has (.mirroring on) = true → Item.lastMirroring? items ≠ none

/-- An item that says nothing on mirroring leaves its flags where they are. -/
theorem has_mirroring_of_add (hsilent : item.mirroring? = none) (h : a.add room item = .ok b)
    (on : Bool) : b.has (.mirroring on) = a.has (.mirroring on) := by
  rcases add_eq_ok h with ⟨flag, values, rfl, hgive⟩ | ⟨-, hgiven⟩
  · -- a third flag takes neither of the two back
    have hother (on : Bool) : flag ≠ .mirroring on := by
      rintro rfl
      rw [Item.mirroring?_given] at hsilent
      cases hsilent
    rw [Bool.eq_iff_iff, has_of_give? hgive, or_iff_right (hother on).symm]
    exact and_iff_left fun hmem => hother _ (Flag.mirroring_mem_revokes_iff.1 hmem)
  · rw [has, has, hgiven]

theorem Mirroring.add (ha : Mirroring items a) (h : a.add room item = .ok b) :
    Mirroring (items ++ [item]) b := by
  have happend := Item.lastMirroring?_append items item
  cases hasked : item.mirroring? with
  | none =>
    have hhas := has_mirroring_of_add hasked h
    rw [hasked, Option.none_or] at happend
    exact ⟨fun on hlast => (hhas on).trans (ha.has_last on (happend.symm.trans hlast)),
      fun on hon hnone => ha.given on ((hhas on).symm.trans hon) (happend.symm.trans hnone)⟩
  | some asked =>
    -- this is the last word now, and its flag has just been given
    rw [hasked, Option.some_or] at happend
    obtain ⟨values, rfl⟩ := Item.exists_of_mirroring? hasked
    rcases add_eq_ok h with ⟨flag, values, heq, hgive⟩ | ⟨⟨text, heq⟩, -⟩
    · obtain ⟨rfl, rfl⟩ := Item.given.inj heq
      refine ⟨fun on hlast => ?_, fun on _ hnone => ?_⟩
      · obtain rfl := Option.some.inj (happend.symm.trans hlast)
        exact (has_of_give? hgive _).2 (.inl rfl)
      · rw [happend] at hnone
        cases hnone
    · cases heq

theorem ofWords_mirroring (h : ofWords flags room words = .ok a) :
    Mirroring (Item.ofWords flags words).1 a :=
  ofWords_induction ⟨nofun, fun _ hhas => absurd hhas Bool.false_ne_true⟩ Mirroring.add h

/-! ## The order of flags -/

/-- A flag that is given once has one value. -/
theorem length_filterMap_value?_le {given : List Given} (h : (given.map Given.flag).Nodup)
    (flag : Flag) : (given.filterMap fun g => g.value? flag).length ≤ 1 := by
  induction given with
  | nil => exact Nat.zero_le 1
  | cons g given ih =>
    obtain ⟨hnew, hnodup⟩ := List.nodup_cons.1 h
    by_cases hg : g.flag = flag
    · -- no flag behind this one is the same
      have hnone : given.filterMap (fun g => g.value? flag) = [] := by
        refine List.filterMap_eq_nil_iff.2 fun other hother => Given.value?_of_ne fun heq => hnew ?_
        rw [hg, ← heq]
        exact List.mem_map_of_mem hother
      rw [List.filterMap_cons, hnone]
      split
      · exact Nat.zero_le 1
      · exact Nat.le_refl 1
    · have hskip : (g :: given).filterMap (fun g => g.value? flag) =
          given.filterMap fun g => g.value? flag :=
        List.filterMap_cons_none (Given.value?_of_ne hg)
      rw [hskip]
      exact ih hnodup

/-- The values of flags that are given once each do not depend on their order. -/
theorem all_perm (h : b.given.Perm a.given) (hnodup : (a.given.map Given.flag).Nodup)
    (flag : Flag) : b.all flag = a.all flag := by
  have hperm : (b.all flag).Perm (a.all flag) := h.filterMap _
  -- at most one value has only one order
  have hlength : (a.all flag).length ≤ 1 := length_filterMap_value?_le hnodup flag
  match hall : a.all flag, hlength with
  | [], _ =>
    rw [hall] at hperm
    exact hperm.eq_nil
  | [value], _ =>
    rw [hall] at hperm
    exact List.perm_singleton.1 hperm

theorem has_perm (h : b.given.Perm a.given) (flag : Flag) : b.has flag = a.has flag := by
  rw [Bool.eq_iff_iff, has_iff, has_iff]
  simp only [h.mem_iff]

end Arguments

/-! ## Steps -/

namespace Overrides

variable {o : Overrides} {s t : Settings} {field : Field} {order : List Step}

/-- The field that a step touches. -/
def Step.touched : Step → Field
  | .presets => .sampling
  | .assign field => field

/-- What a step makes of a field that it touches depends on nothing else than the field. -/
theorem get_perform_congr (h : s.get field = t.get field) (step : Step) :
    (step.perform o s).get field = (step.perform o t).get field := by
  have hset {other : Field} (content : other.Content) :
      (s.set other content).get field = (t.set other content).get field := by
    by_cases heq : field = other
    · subst heq
      rw [Settings.get_set_self, Settings.get_set_self]
    · rw [Settings.get_set_of_ne heq, Settings.get_set_of_ne heq, h]
  cases step with
  | presets =>
    simp only [Step.perform]
    split
    · exact hset _
    · exact h
  | assign other =>
    simp only [Step.perform]
    cases o.given? other with
    | none => exact h
    | some content => exact hset content

/-- A step leaves all other fields as they are. -/
theorem get_perform_of_ne {step : Step} (h : step.touched ≠ field) :
    (step.perform o s).get field = s.get field := by
  cases step with
  | presets =>
    simp only [Step.perform]
    split
    · exact Settings.get_set_of_ne h.symm _
    · rfl
  | assign other =>
    simp only [Step.perform]
    cases o.given? other with
    | none => rfl
    | some content => exact Settings.get_set_of_ne h.symm content

theorem get_assign (o : Overrides) (s : Settings) (field : Field) :
    ((Step.assign field).perform o s).get field = (o.given? field).getD (s.get field) := by
  simp only [Step.perform]
  cases o.given? field with
  | none => rfl
  | some content => exact Settings.get_set_self s field content

/-- For a field only the steps count that touch it. -/
theorem get_foldl (h : s.get field = t.get field) (order : List Step) :
    (order.foldl (Step.perform o) s).get field =
      ((order.filter fun step => step.touched = field).foldl (Step.perform o) t).get field := by
  induction order generalizing s t with
  | nil => exact h
  | cons step order ih =>
    by_cases htouched : step.touched = field
    · rw [List.filter_cons_of_pos (by rwa [decide_eq_true_eq])]
      exact ih (get_perform_congr h step)
    · rw [List.filter_cons_of_neg (by rwa [decide_eq_true_eq])]
      exact ih ((get_perform_of_ne htouched).trans h)

/-- An order of all steps in which presets have their turn before a sampling that is given. -/
structure Admissible (order : List Step) : Prop where
  perm : order.Perm Step.all
  presets_first : (order.filter fun step => step.touched = .sampling) = [.presets, .assign .sampling]

theorem admissible_all : Admissible Step.all where
  perm := .refl _
  presets_first := by decide

/-- Every field but the sampling is touched once. -/
theorem Admissible.filter_touched (h : Admissible order) (hfield : field ≠ .sampling) :
    (order.filter fun step => step.touched = field) = [.assign field] := by
  have hall : ∀ field ∈ Field.all, field ≠ .sampling →
      (Step.all.filter fun step => step.touched = field) = [.assign field] := by decide
  refine List.perm_singleton.1 ?_
  rw [← hall field field.mem_all hfield]
  exact h.perm.filter _

/-- What a field is where nothing is given for it. -/
def implied (o : Overrides) (s : Settings) (field : Field) : field.Content :=
  (Step.presets.perform o s).get field

theorem implied_of_ne (h : field ≠ .sampling) : implied o s field = s.get field :=
  get_perform_of_ne h.symm

theorem implied_sampling (o : Overrides) (s : Settings) :
    implied o s .sampling = if o.usesPreset then Sampling.grid else s.sampling := by
  unfold implied
  simp only [Step.perform]
  split
  · exact Settings.get_set_self s .sampling _
  · rfl

/-- **A field after all steps** is what is given for it, and otherwise what it was or what presets
imply. -/
theorem get_run (h : Admissible order) (s : Settings) (field : Field) :
    (order.foldl (Step.perform o) s).get field = (o.given? field).getD (implied o s field) := by
  rw [get_foldl rfl]
  by_cases hfield : field = .sampling
  · subst hfield
    -- the sampling that is given replaces what presets made of it
    rw [h.presets_first]
    exact get_assign o _ .sampling
  · rw [h.filter_touched hfield, implied_of_ne hfield]
    exact get_assign o s field

theorem run_eq_apply (h : Admissible order) (s : Settings) :
    order.foldl (Step.perform o) s = o.apply s :=
  Settings.ext_get fun field => (get_run h s field).trans (get_run admissible_all s field).symm

/-! ## Precedence -/

variable {a : Arguments}

/-- The settings `t` are what is given for them, and otherwise what `s` says. -/
structure Precedence (a : Arguments) (s t : Settings) : Prop where
  style : t.style = (a.first? .style).getD s.style
  f1 : t.f1 = ((a.first? .preset1).map Preset.formula).getD ((a.first? .f1).getD s.f1)
  f2 : t.f2 = ((a.first? .preset2).map Preset.formula).getD ((a.first? .f2).getD s.f2)
  /-- Presets are made for a grid. -/
  sampling : t.sampling = (a.first? .sampling).getD
    (if (a.first? .preset1).isSome ∨ (a.first? .preset2).isSome then .grid else s.sampling)
  domain : t.domain = (a.first? .domain).getD s.domain
  sampleCount : t.sampleCount = (a.first? .samples).getD s.sampleCount
  colorMode : t.colorMode = (a.first? .colorMode).getD s.colorMode
  color : t.color = (a.first? .color).getD s.color
  color1 : t.color1 = (a.first? .color1).getD s.color1
  color2 : t.color2 = (a.first? .color2).getD s.color2
  alpha : t.alpha = (a.first? .alpha).getD s.alpha
  pointSize : t.pointSize = (a.first? .pointSize).getD s.pointSize
  lineWidth : t.lineWidth = (a.first? .lineWidth).getD s.lineWidth
  jitter : t.jitter = (a.first? .jitter).getD s.jitter
  mirror : t.mirror = if a.has .mirror then true else if a.has .noMirror then false else s.mirror
  rotationDegrees : t.rotationDegrees = (a.first? .rotation).getD s.rotationDegrees
  backgroundColor : t.backgroundColor = (a.first? .background).getD s.backgroundColor
  seed : t.seed = (a.first? .seed).or s.seed
  figureSize : t.figureSize = (a.first? .figureSize).getD s.figureSize

theorem exists_ofGiven {text : Option String} {preset : Option Preset}
    (h : text = none ∨ preset = none) : ∃ choice, FormulaChoice.ofGiven text preset = .ok choice := by
  unfold FormulaChoice.ofGiven
  split
  · exact absurd h (by simp)
  · exact ⟨_, rfl⟩
  · exact ⟨_, rfl⟩
  · exact ⟨_, rfl⟩

/-- What is chosen for a formula: the preset, or the text, or nothing. -/
theorem ofGiven_spec {text : Option String} {preset : Option Preset} {choice : Option FormulaChoice}
    (h : FormulaChoice.ofGiven text preset = .ok choice) :
    (∀ formula, (choice.map FormulaChoice.formula).getD formula =
      (preset.map Preset.formula).getD (text.getD formula)) ∧
      choice.any FormulaChoice.isPreset = preset.isSome := by
  unfold FormulaChoice.ofGiven at h
  split at h
  · cases h
  all_goals
    obtain rfl := Except.ok.inj h
    exact ⟨fun _ => rfl, rfl⟩

/-- Overrides take nothing else of the arguments than the values of flags. -/
theorem ofArguments_congr {b : Arguments} (hfirst : ∀ flag, b.first? flag = a.first? flag)
    (hhas : ∀ flag, b.has flag = a.has flag) : ofArguments b = ofArguments a := by
  unfold ofArguments
  simp only [hfirst, hhas]

theorem apply_precedence {f1 f2 : Option FormulaChoice}
    (hf1 : FormulaChoice.ofGiven (a.first? .f1) (a.first? .preset1) = .ok f1)
    (hf2 : FormulaChoice.ofGiven (a.first? .f2) (a.first? .preset2) = .ok f2)
    (ho : ofArguments a = .ok o) (s : Settings) : Precedence a s (o.apply s) := by
  obtain ⟨htext1, hpreset1⟩ := ofGiven_spec hf1
  obtain ⟨htext2, hpreset2⟩ := ofGiven_spec hf2
  have hsampling : (o.apply s).get .sampling = (o.given? .sampling).getD (implied o s .sampling) :=
    get_run admissible_all s .sampling
  have hother (field : Field) (hfield : field ≠ .sampling) :
      (o.apply s).get field = (o.given? field).getD (s.get field) := by
    have hrun := get_run (o := o) admissible_all s field
    rwa [implied_of_ne hfield] at hrun
  rw [implied_sampling] at hsampling
  unfold ofArguments at ho
  rw [hf1, hf2] at ho
  obtain rfl := Except.ok.inj ho
  refine
    { style := hother .style (by decide)
      f1 := (hother .f1 (by decide)).trans (htext1 s.f1)
      f2 := (hother .f2 (by decide)).trans (htext2 s.f2)
      sampling := hsampling.trans ?_
      domain := hother .domain (by decide)
      sampleCount := hother .sampleCount (by decide)
      colorMode := hother .colorMode (by decide)
      color := hother .color (by decide)
      color1 := hother .color1 (by decide)
      color2 := hother .color2 (by decide)
      alpha := hother .alpha (by decide)
      pointSize := hother .pointSize (by decide)
      lineWidth := hother .lineWidth (by decide)
      jitter := hother .jitter (by decide)
      mirror := (hother .mirror (by decide)).trans ?_
      rotationDegrees := hother .rotationDegrees (by decide)
      backgroundColor := hother .backgroundColor (by decide)
      seed := (hother .seed (by decide)).trans ?_
      figureSize := hother .figureSize (by decide) }
  · simp only [usesPreset, hpreset1, hpreset2, Bool.or_eq_true]
    rfl
  · show (switch (a.has .mirror) (a.has .noMirror)).getD s.mirror = _
    unfold switch
    cases a.has .mirror <;> cases a.has .noMirror <;> rfl
  · show ((a.first? .seed).map some).getD s.seed = _
    cases a.first? .seed <;> rfl

/-- The flag for mirroring that is left decides. -/
theorem Precedence.mirror_of_has {on : Bool} (ht : Precedence a s t) (ha : a.Unrevoked)
    (h : a.has (.mirroring on) = true) : t.mirror = on := by
  cases on with
  | true => exact ht.mirror.trans (if_pos h)
  | false =>
    -- the flag that is asked for first has been taken back
    have hmirror : a.has .mirror = false := ha .noMirror .mirror (by decide) h
    rw [ht.mirror, hmirror, if_neg Bool.false_ne_true]
    exact if_pos h

/-- **Of the flags for mirroring the last word counts**, and without one mirroring is as it was. -/
theorem Precedence.mirror_eq_last {flags : List Flag} {room : Nat} {words : List String}
    (ht : Precedence a s t) (h : Arguments.ofWords flags room words = .ok a) :
    t.mirror = (Item.lastMirroring? (Item.ofWords flags words).1).getD s.mirror := by
  have hmirroring := Arguments.ofWords_mirroring h
  cases hlast : Item.lastMirroring? (Item.ofWords flags words).1 with
  | some on =>
    exact ht.mirror_of_has (Arguments.ofWords_revoked h) (hmirroring.has_last on hlast)
  | none =>
    have habsent (on : Bool) : a.has (.mirroring on) = false :=
      Bool.eq_false_iff.2 fun hon => hmirroring.given on hon hlast
    have hmirror : a.has .mirror = false := habsent true
    have hnoMirror : a.has .noMirror = false := habsent false
    rw [ht.mirror, hmirror, hnoMirror]
    rfl

example : Item.lastMirroring? (Item.ofWords flags ["--no-mirror", "--mirror"]).1 = some true := by
  decide

/-- **Flags have precedence over settings.** Arguments in which no formula is given in two ways make
overrides. These set every field to what is given for it and leave it as it is otherwise, with the
exceptions that `Precedence` names. They do so in any order of their steps in which presets come
before the sampling, and flags that are given once may stand in any order. -/
theorem ofArguments_precedence (h1 : a.first? .f1 = none ∨ a.first? .preset1 = none)
    (h2 : a.first? .f2 = none ∨ a.first? .preset2 = none) :
    ∃ o, ofArguments a = .ok o ∧ (∀ s, Precedence a s (o.apply s)) ∧
      (∀ s order, Admissible order → order.foldl (Step.perform o) s = o.apply s) ∧
      ∀ b : Arguments, b.given.Perm a.given → (a.given.map Given.flag).Nodup →
        ofArguments b = .ok o := by
  obtain ⟨f1, hf1⟩ := exists_ofGiven h1
  obtain ⟨f2, hf2⟩ := exists_ofGiven h2
  obtain ⟨o, ho⟩ : ∃ o, ofArguments a = .ok o := by
    unfold ofArguments
    rw [hf1, hf2]
    exact ⟨_, rfl⟩
  refine ⟨o, ho, apply_precedence hf1 hf2 ho, fun s order horder => run_eq_apply horder s,
    fun b hb hnodup => ?_⟩
  have hall (flag : Flag) : b.all flag = a.all flag := Arguments.all_perm hb hnodup flag
  rw [ofArguments_congr (fun flag => congrArg List.head? (hall flag)) (Arguments.has_perm hb)]
  exact ho

/-- Arguments with a preset, a sampling, and mirroring turned off. -/
def presetArguments : Arguments where
  given := [⟨.preset1, ⟨.sin, .add⟩⟩, ⟨.sampling, .sweep⟩, ⟨.noMirror, ()⟩, ⟨.color1, Rgba.black⟩]
  operands := []

/-- The preset is the formula, and the sampling is the one that is given, not the grid. -/
theorem ofArguments_precedence_preset :
    ∃ o, ofArguments presetArguments = .ok o ∧ (∀ s, (o.apply s).f1 = "sin(x) + sin(y)" ∧
      (o.apply s).sampling = .sweep ∧ (o.apply s).mirror = false ∧ (o.apply s).color = s.color) := by
  obtain ⟨o, ho, hprecedence, -⟩ := ofArguments_precedence (a := presetArguments) (.inl rfl) (.inl rfl)
  refine ⟨o, ho, fun s => ⟨?_, ?_, ?_, ?_⟩⟩
  · exact (hprecedence s).f1.trans (show Preset.formula ⟨.sin, .add⟩ = _ by decide)
  · exact (hprecedence s).sampling
  · exact (hprecedence s).mirror
  · exact (hprecedence s).color

end Overrides

end CurveArt
