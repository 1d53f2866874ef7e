import CurveArt.Proofs.Binary64.UnitInterval
import CurveArt.Proofs.Json.Rereading
import CurveArt.Proofs.Settings.Bounds
import CurveArt.Proofs.Settings.Stored

/-!
# Settings that pass, in and out of store

The check looks at every number of the settings, but for the domain of the polar style. So only that
domain may have an end that is not finite. JSON has nothing to write there but `null`, which is not
read as a double, and the stored settings are refused. All other settings that pass are read, with
every double near to what it was, and pass again, unless the two ends of a domain have met.

Main results:

* `Settings.ofStored_of_validate`: what is read for settings that pass, and whether that passes.
* `Settings.passing_notReloaded`: settings that pass and are not read, or pass no more when read.
-/

namespace CurveArt

open Binary64
open Json (AreBlanks IsShort ReadsAs Rereads)

variable {s u : Settings} {text : List Char} {x y z : Float}

namespace Json

/-! ## Doubles in and out of store -/

/-- What the text of a double is read as. -/
def reread (x : Float) : Float :=
  match readFloat (floatText x) with
  | .ok (y, _) => y
  | .error _ => x

theorem ReadsAs.reread_eq (h : ReadsAs x y) : reread x = y := by
  unfold ReadsAs at h
  unfold reread
  rw [h]

theorem rereads_reread (hx : x.isFinite = true) : Rereads x (reread x) := by
  obtain ⟨y, hy⟩ := exists_rereads hx
  rw [hy.readsAs.reread_eq]
  exact hy

/-- What is at most a short number that reads back is not read as more than that. -/
theorem Rereads.le_of_le (h : Rereads x y) (hx : x.isFinite = true) {c : Nat} (hc : IsShort c)
    (hz : z.isFinite = true) (hvalue : value z = c) (hread : ReadsAs z z)
    (hle : value x ≤ value z) : value y ≤ value z := by
  rcases hle.lt_or_eq with hlt | heq
  · rw [hvalue] at hlt ⊢
    exact h.le c hc hlt
  · have hpos : (0 : ℚ) < c := by exact_mod_cast hc.pos
    obtain rfl : x = z := eq_of_value hx hz heq (by rw [heq, hvalue]; exact hpos.ne')
    rw [← h.readsAs.reread_eq, hread.reread_eq]

theorem Rereads.nonneg (h : Rereads x y) (hnonneg : 0 ≤ value x) : 0 ≤ value y := by
  rcases hnonneg.lt_or_eq with hpos | hzero
  · exact (h.pos hpos).le
  · rw [h.zero hzero.symm]
    exact hnonneg

/-- A range from zero to a short number is kept. -/
theorem Rereads.within (h : Rereads x y) {c : Nat} (hc : IsShort c) (hz : z.isFinite = true)
    (hvalue : value z = c) (hread : ReadsAs z z) (hwithin : within 0.0 z x = true) :
    Binary64.within 0.0 z y = true := by
  obtain ⟨hx, hlow, hhigh⟩ := (within_iff_value rfl hz).1 hwithin
  rw [value_zero] at hlow
  rw [within_iff_value rfl hz, value_zero]
  exact ⟨h.isFinite, h.nonneg hlow, h.le_of_le hx hc hz hvalue hread hhigh⟩

/-- Numbers that are far enough from each other are read in their order. -/
theorem Rereads.lt (h : Rereads x y) {x' y' : Float} (h' : Rereads x' y')
    (hfar : (|value x| + |value x'|) / 2 ^ (46 : Nat) + 2 ^ (-1073 : Int) < value x' - value x) :
    value y < value y' := by
  have hlow := (abs_le.1 h'.near).1
  have hhigh := (abs_le.1 h.near).2
  have htwice : (2 : ℚ) ^ (-1073 : Int) = 2 * 2 ^ (-1074 : Int) := by
    rw [show (-1073 : Int) = 1 + -1074 from rfl, zpow_add₀ two_ne_zero]
    norm_num
  rw [add_div, htwice] at hfar
  linarith

/-! ### The bounds of shares and angles -/

theorem readsAs_one : ReadsAs 1.0 1.0 :=
  readsAs_of_toOption (by decide +kernel)

theorem readsAs_turn : ReadsAs 360.0 360.0 :=
  readsAs_of_toOption (by decide +kernel)

theorem isShort_turn : IsShort 360 :=
  ⟨45, 3, rfl, by decide, by decide, by decide⟩

theorem value_turn : value 360.0 = (360 : Nat) := by
  rw [value_eq (show unpacked 360.0 = .finite .positive (45 * 2 ^ 47) (-44) (by decide) from rfl)]
  show ((45 * 2 ^ 47 : Nat) : ℚ) * 2 ^ (-44 : Int) = (360 : Nat)
  norm_num

end Json

/-! ## Pairs without a number -/

namespace Field

/-- A pair with an end that is not finite is not read. -/
theorem refused_domain (h : ¬(s.domain.1.isFinite = true ∧ s.domain.2.isFinite = true)) :
    Field.domain.Refused s (.invalidType .null "f64") := by
  intro t text gap rest hwritten hgap
  obtain ⟨front, middle, back, hfront, hmiddle, -, rfl⟩ := hwritten.exists_pair
  have hread : Json.readPair (gap ++ '[' :: (front ++ ((Json.Value.ofFloat s.domain.1).scalar ++
      ',' :: (middle ++ ((Json.Value.ofFloat s.domain.2).scalar ++ (back ++ ']' :: rest)))))) =
        .error (.invalidType .null "f64") := by
    unfold Json.Value.ofFloat
    by_cases hfirst : s.domain.1.isFinite = true
    · have hsecond : ¬s.domain.2.isFinite = true := fun hsecond => h ⟨hfirst, hsecond⟩
      rw [if_pos hfirst, if_neg hsecond]
      exact Json.readPair_null_second (Json.rereads_reread hfirst).readsAs hgap hfront hmiddle
    · rw [if_neg hfirst]
      exact Json.readPair_null_first hgap hfront
  simp only [List.append_assoc, List.cons_append, List.nil_append]
  exact put_error hread fun domain => { t with domain := domain }

end Field

namespace Settings

/-! ## Settings in and out of store -/

/-- What stored settings are read as: colours move to bytes, and doubles to what their texts are
read as. -/
def reloaded (s : Settings) : Settings :=
  s.quantized.mapFloats Json.reread

theorem InBounds.sampleCount_lt (h : s.InBounds) : s.sampleCount < Word.count 64 :=
  h.le_greatest.trans_lt (by decide)

/-- Only the ends of a domain may be no numbers. -/
theorem InBounds.isFinite (h : s.InBounds)
    (hdomain : s.domain.1.isFinite = true ∧ s.domain.2.isFinite = true) :
    ∀ x ∈ s.floats, x.isFinite = true := by
  have halpha := ((within_iff_value rfl rfl).1 h.alpha).1
  have hrotation := ((within_iff_value rfl rfl).1 h.rotation).1
  have hmeasure (measure : Measure × Float) (hmem : measure ∈ s.measures) :
      measure.2.isFinite = true := (validMeasure_iff.1 (h.measures measure hmem)).1
  simp only [Settings.measures, List.forall_mem_cons] at hmeasure
  obtain ⟨hpoint, hline, hwidth, hheight, -⟩ := hmeasure
  simp only [Settings.floats, List.forall_mem_cons]
  exact ⟨hdomain.1, hdomain.2, halpha, hpoint, hline, h.jitter_isFinite, hrotation, hwidth, hheight,
    List.forall_mem_nil _⟩

/-- **Settings in their bounds are read**, if their domain is finite. -/
theorem InBounds.ofStored (h : s.InBounds)
    (hdomain : s.domain.1.isFinite = true ∧ s.domain.2.isFinite = true)
    (hwritten : s.stored.Written text) : ofStored (String.ofList text) = .ok s.reloaded := by
  refine ofStored_of_taken (fun field => Field.taken_mapFloats h.sampleCount_lt fun x hx => ?_)
    hwritten
  have hfinite := h.isFinite hdomain x (Field.mem_floats hx)
  exact ⟨hfinite, (Json.rereads_reread hfinite).readsAs⟩

/-- Settings are refused for a domain that is not finite, whatever else is in them. -/
theorem ofStored_of_infinite (hcount : s.sampleCount < Word.count 64)
    (hdomain : ¬(s.domain.1.isFinite = true ∧ s.domain.2.isFinite = true))
    (hwritten : s.stored.Written text) :
    ofStored (String.ofList text) = .error (.invalidType .null "f64") := by
  have htaken : ∀ field ∈ [Field.style, .f1, .f2, .sampling],
      field.Taken s (s.quantized.mapFloats id) := by
    intro field hfield
    refine Field.taken_mapFloats hcount fun x hx => ?_
    -- none of these fields is written with doubles
    have hnone : field.floats s = [] := by
      simp only [List.mem_cons, List.not_mem_nil, or_false] at hfield
      rcases hfield with rfl | rfl | rfl | rfl <;> rfl
    rw [hnone] at hx
    cases hx
  have hall : Field.all =
      .style :: [.f1, .f2, .sampling] ++ .domain :: Field.all.drop 5 := rfl
  exact ofStored_of_refused hall htaken (Field.refused_domain hdomain) hwritten

/-- **Reading keeps the bounds**, as far as it keeps the order of the domain. -/
theorem InBounds.reloaded_iff (h : s.InBounds)
    (hdomain : s.domain.1.isFinite = true ∧ s.domain.2.isFinite = true) :
    s.reloaded.InBounds ↔ s.style = .polar ∨
      value (Json.reread s.domain.1) < value (Json.reread s.domain.2) := by
  have hlo := Json.rereads_reread hdomain.1
  have hhi := Json.rereads_reread hdomain.2
  have hvalid : validDomain s.reloaded.domain = true ↔
      value (Json.reread s.domain.1) < value (Json.reread s.domain.2) := by
    rw [validDomain_iff]
    exact ⟨fun hvalid => hvalid.2.2, fun hlt => ⟨hlo.isFinite, hhi.isFinite, hlt⟩⟩
  constructor
  · intro hreloaded
    by_cases hstyle : s.style = .polar
    · exact .inl hstyle
    · exact .inr (hvalid.1 (hreloaded.domain hstyle))
  · intro horder
    have halpha := ((within_iff_value rfl rfl).1 h.alpha).1
    have hrotation := ((within_iff_value rfl rfl).1 h.rotation).1
    have hjitter := Json.rereads_reread h.jitter_isFinite
    -- every range but the domain is kept by reading one double
    refine ⟨h.least_le, h.le_greatest, fun hstyle => hvalid.2 (horder.resolve_left hstyle), ?_,
      hjitter.isFinite, ?_, ?_, ?_⟩
    · exact (Json.rereads_reread halpha).within Json.isShort_one rfl
        (value_one.trans Nat.cast_one.symm) Json.readsAs_one h.alpha
    · show ¬Json.reread s.jitter < 0.0
      have hnonneg := h.jitter_nonneg
      rw [lt_iff_value h.jitter_isFinite rfl, value_zero, not_lt] at hnonneg
      rw [lt_iff_value hjitter.isFinite rfl, value_zero, not_lt]
      exact hjitter.nonneg hnonneg
    · exact (Json.rereads_reread hrotation).within Json.isShort_turn rfl Json.value_turn
        Json.readsAs_turn h.rotation
    · have hmap : s.reloaded.measures = s.measures.map fun m => (m.1, Json.reread m.2) := rfl
      rw [hmap, List.forall_mem_map]
      intro measure hmem
      obtain ⟨hfinite, hpos⟩ := validMeasure_iff.1 (h.measures measure hmem)
      have hreread := Json.rereads_reread hfinite
      exact validMeasure_iff.2 ⟨hreread.isFinite, hreread.pos hpos⟩

/-- **Settings that pass, in and out of store.** If an end of their domain is not finite, which only
the polar style lets pass, they are stored but not read. All others are read, with their doubles
near to what they were, and what is read passes, too, unless it has a domain whose ends were so
close that their order was lost. -/
theorem ofStored_of_validate (hvalid : s.validate = .ok ()) (hwritten : s.stored.Written text) :
    (¬(s.domain.1.isFinite = true ∧ s.domain.2.isFinite = true) → s.style = .polar ∧
      ofStored (String.ofList text) = .error (.invalidType .null "f64")) ∧
    (s.domain.1.isFinite = true ∧ s.domain.2.isFinite = true →
      ofStored (String.ofList text) = .ok s.reloaded ∧
      (∀ x ∈ s.floats, |value (Json.reread x) - value x| ≤
        |value x| / 2 ^ (46 : Nat) + 2 ^ (-1074 : Int)) ∧
      (s.reloaded.validate = .ok () ↔ s.style = .polar ∨
        value (Json.reread s.domain.1) < value (Json.reread s.domain.2)) ∧
      ((|value s.domain.1| + |value s.domain.2|) / 2 ^ (46 : Nat) + 2 ^ (-1073 : Int) <
        value s.domain.2 - value s.domain.1 → s.reloaded.validate = .ok ())) := by
  have hbounds := validate_eq_ok.1 hvalid
  -- what is not a number can only stand in the domain, and only where that is not checked
  constructor
  · intro hinfinite
    refine ⟨?_, ofStored_of_infinite hbounds.sampleCount_lt hinfinite hwritten⟩
    by_contra hstyle
    obtain ⟨hlo, hhi, -⟩ := validDomain_iff.1 (hbounds.domain hstyle)
    exact hinfinite ⟨hlo, hhi⟩
  · intro hdomain
    have hiff := hbounds.reloaded_iff hdomain
    rw [← validate_eq_ok] at hiff
    refine ⟨hbounds.ofStored hdomain hwritten, fun x hx => ?_, hiff, fun hfar => ?_⟩
    · exact (Json.rereads_reread (hbounds.isFinite hdomain x hx)).near
    · exact hiff.2 (.inr ((Json.rereads_reread hdomain.1).lt (Json.rereads_reread hdomain.2) hfar))

/-- Settings in which nothing is what it is by default. -/
def chosen : Settings where
  style := .connectedLine
  f1 := "x * sin(3 * y)"
  f2 := "exp(-y) + random()"
  sampling := .grid
  domain := (3.8120423768821246, 12.1)
  sampleCount := 250
  colorMode := .radialGradient
  color := Rgba.ofBytes 0x00 0x33 0x66
  color1 := Rgba.ofBytes 0xd6 0x27 0x28
  color2 := Rgba.ofBytes 0x2c 0xa0 0x2c
  alpha := 0.9
  pointSize := 3.5
  lineWidth := 0.1
  jitter := 1e-3
  mirror := true
  rotationDegrees := 33.3
  backgroundColor := Rgba.ofBytes 0x10 0x10 0x10
  seed := some 42
  figureSize := (8.5, 11.0)

/-- What the chosen settings are read as: one end of the domain is the next double. -/
def chosenAsRead : Settings :=
  { chosen with domain := (3.812042376882125, 12.1) }

theorem reloaded_chosen : chosen.reloaded = chosenAsRead := by
  have hlo : Json.reread 3.8120423768821246 = 3.812042376882125 := by decide +kernel
  have hothers : ∀ x ∈ chosen.floats.tail, Json.reread x = x := by decide +kernel
  have hbytes {r g b : Nat} := @Rgba.quantized_ofBytes r g b
  simp only [floats, List.tail_cons, List.forall_mem_cons, chosen] at hothers
  simp only [reloaded, quantized, mapFloats, chosenAsRead, chosen, hlo, hothers, hbytes,
    Nat.reduceLT]

/-- The chosen settings pass, are read with everything in them, and pass again. -/
theorem chosen_reloaded : chosen.validate = .ok () ∧
    ofStored chosen.storedText = .ok chosenAsRead ∧ chosenAsRead.validate = .ok () := by
  have hvalid : chosen.validate = .ok () := rfl
  have hdomain : chosen.domain.1.isFinite = true ∧ chosen.domain.2.isFinite = true := ⟨rfl, rfl⟩
  have horder : Json.reread chosen.domain.1 < Json.reread chosen.domain.2 := by decide +kernel
  rw [lt_iff_value (Json.rereads_reread hdomain.1).isFinite
    (Json.rereads_reread hdomain.2).isFinite] at horder
  obtain ⟨hread, -, hiff, -⟩ := (ofStored_of_validate hvalid .compact).2 hdomain
  rw [reloaded_chosen] at hread hiff
  exact ⟨hvalid, hread, hiff.2 (.inr horder)⟩

/-- Polar settings with a domain that nothing looks at. -/
def unbounded : Settings :=
  { default with
    style := .polar
    domain := (-(1.0 / 0.0), 1.0 / 0.0) }

/-- Settings with a domain of the least width. -/
def narrow : Settings :=
  { default with domain := (3.8120423768821246, 3.812042376882125) }

/-- Settings that pass and are not read, and others that pass no more when they have been read. -/
theorem passing_notReloaded :
    (unbounded.validate = .ok () ∧
      ofStored unbounded.storedText = .error (.invalidType .null "f64")) ∧
    (narrow.validate = .ok () ∧ ofStored narrow.storedText = .ok narrow.reloaded ∧
      narrow.reloaded.validate ≠ .ok ()) := by
  have hbounds : narrow.InBounds := validate_eq_ok.1 rfl
  have hdomain : narrow.domain.1.isFinite = true ∧ narrow.domain.2.isFinite = true := ⟨rfl, rfl⟩
  -- the lower end is read as the upper one
  have hlo : ReadsAs 3.8120423768821246 3.812042376882125 :=
    Json.readsAs_of_toOption (by decide +kernel)
  have hhi : ReadsAs 3.812042376882125 3.812042376882125 :=
    Json.readsAs_of_toOption (by decide +kernel)
  have hends : Json.reread narrow.domain.1 = Json.reread narrow.domain.2 :=
    hlo.reread_eq.trans hhi.reread_eq.symm
  have hinvalid : narrow.reloaded.validate ≠ .ok () := by
    rw [Ne, validate_eq_ok, hbounds.reloaded_iff hdomain, hends]
    rintro (hstyle | hlt)
    · cases hstyle
    · exact lt_irrefl _ hlt
  exact ⟨⟨rfl, ofStored_of_infinite (by decide) (by decide) .compact⟩, rfl,
    hbounds.ofStored hdomain .compact, hinvalid⟩

end Settings

end CurveArt
