import CurveArt.Proofs.Color.Range
import CurveArt.Proofs.Generation.Answer

/-!
# The colours of a drawing

Every point of a drawing gets its colour by the mode of the drawing, with the opacity of the
settings. Where the colours of the settings have channels in `[0, 1]`, so have those of the points,
with one exception: in a gradient by distance, a point whose distance is beyond all doubles has a
colour that is none. Points with coordinates up to `4e307` have no such distances.

Main results:

* `ColorScheme.colors_colored`: the colours that a scheme gives to finite points.
* `generate_colored`: those of a generated drawing.
-/

namespace CurveArt

open Binary64

/-! ## Colours of points -/

namespace Rgba

/-- The three channels lie in `[0, 1]`. -/
def InRange (c : Rgba) : Prop :=
  within 0.0 1.0 c.r = true ∧ within 0.0 1.0 c.g = true ∧ within 0.0 1.0 c.b = true

/-- No channel is a number. -/
def NoNumber (c : Rgba) : Prop :=
  c.r.isNaN = true ∧ c.g.isNaN = true ∧ c.b.isNaN = true

instance (c : Rgba) : Decidable c.InRange := inferInstanceAs (Decidable (_ ∧ _ ∧ _))

instance (c : Rgba) : Decidable c.NoNumber := inferInstanceAs (Decidable (_ ∧ _ ∧ _))

end Rgba

/-- What the colour of a point is like in the given mode. -/
structure Colored (mode : ColorMode) (opacity : Float) (p : Point) (c : Rgba) : Prop where
  opacity_eq : c.a = opacity
  channels : if mode = .radialGradient ∧ (hypot p.x p.y).isFinite = false then c.NoNumber
    else c.InRange

theorem within_iff {x : Float} : within 0.0 1.0 x = true ↔ InUnit x := by
  rw [within_iff_value rfl rfl, value_zero, value_one]
  exact ⟨fun ⟨hx, hlow, hhigh⟩ => ⟨hx, hlow, hhigh⟩, fun h => ⟨h.isFinite, h.nonneg, h.le_one⟩⟩

theorem Rgba.inRange_iff {c : Rgba} : c.InRange ↔ InUnit c.r ∧ InUnit c.g ∧ InUnit c.b := by
  rw [InRange, within_iff, within_iff, within_iff]

theorem Rgba.blend_inRange {c d : Rgba} {t : Float} (hc : c.InRange) (hd : d.InRange)
    (ht : InUnit t) : (c.blend d t).InRange := by
  rw [inRange_iff] at hc hd ⊢
  exact ⟨mix_inUnit hc.1 hd.1 ht, mix_inUnit hc.2.1 hd.2.1 ht, mix_inUnit hc.2.2 hd.2.2 ht⟩

theorem Rgba.blend_noNumber (c d : Rgba) {t : Float} (ht : t.isNaN = true) :
    (c.blend d t).NoNumber :=
  ⟨mix_isNaN _ _ ht, mix_isNaN _ _ ht, mix_isNaN _ _ ht⟩

theorem Rgba.drawn_inRange (s : Random.Stream) : (drawn s).1.InRange :=
  inRange_iff.2 ⟨unit_inUnit _, unit_inUnit _, unit_inUnit _⟩

/-! ## Schemes -/

variable {points : List Point} {mode : ColorMode} {color first last : Rgba} {opacity : Float}

theorem Colored.of_inRange {p : Point} {c : Rgba} (hmode : mode ≠ .radialGradient)
    (hc : c.InRange) : Colored mode opacity p (c.withOpacity opacity) := by
  refine ⟨rfl, ?_⟩
  rw [if_neg fun h => hmode h.1]
  exact hc

/-- **The colours of finite points.** Whatever the mode is, each point gets a colour with the given
opacity, and its channels are those of a colour as far as its distance is a double. -/
theorem ColorScheme.colors_colored (hcolor : color.InRange) (hfirst : first.InRange)
    (hlast : last.InRange) (hpoints : ∀ p ∈ points, p.isFinite = true)
    (hcount : points.length ≤ 2 ^ 53) (stream : Random.Stream) {q : Point × Rgba}
    (hq : q ∈ points.zip ((ofMode mode color first last stream).colors points opacity)) :
    Colored mode opacity q.1 q.2 := by
  cases mode with
  | solid =>
    obtain ⟨-, hc⟩ := List.of_mem_zip hq
    rw [List.eq_of_mem_replicate hc]
    exact .of_inRange (by decide) hcolor
  | random =>
    obtain ⟨-, hc⟩ := List.of_mem_zip hq
    rw [List.eq_of_mem_replicate hc]
    exact .of_inRange (by decide) (Rgba.drawn_inRange stream)
  | linearGradient =>
    obtain ⟨-, hc⟩ := List.of_mem_zip hq
    obtain ⟨t, ht, hblend⟩ := List.mem_map.1 hc
    rw [← hblend]
    exact .of_inRange (by decide) (Rgba.blend_inRange hfirst hlast (linearPlaces_inUnit hcount ht))
  | radialGradient =>
    obtain ⟨place, hplaces, hplace⟩ := radialPlaces_eq hpoints
    simp only [ofMode, colors, hplaces, List.map_map, ← List.map_prod_left_eq_zip] at hq
    obtain ⟨p, hp, rfl⟩ := List.mem_map.1 hq
    have hchannels := hplace p hp
    refine ⟨rfl, ?_⟩
    -- a point has a place exactly where its distance is a double
    cases hdistance : (hypot p.x p.y).isFinite with
    | true =>
      rw [hdistance, if_pos rfl] at hchannels
      rw [if_neg (by simp)]
      exact Rgba.blend_inRange hfirst hlast hchannels
    | false =>
      rw [hdistance, if_neg Bool.false_ne_true] at hchannels
      rw [if_pos ⟨rfl, rfl⟩]
      exact Rgba.blend_noNumber first last hchannels

/-! ## Drawings -/

theorem mem_zip_take {α β : Type} {l : List α} {m : List β} {n : Nat} {q : α × β}
    (h : q ∈ l.zip (m.take n)) : q ∈ l.zip m := by
  obtain ⟨i, hi, rfl⟩ := List.mem_iff_getElem.1 h
  rw [List.length_zip, List.length_take] at hi
  have hi' : i < (l.zip m).length := by
    rw [List.length_zip]
    omega
  have hget : (l.zip (m.take n))[i] = (l.zip m)[i] := by
    rw [List.getElem_zip, List.getElem_zip, List.getElem_take]
  rw [hget]
  exact List.getElem_mem hi'

theorem exists_mem_zip {α β : Type} {l : List α} {m : List β} (h : m.length ≤ l.length) {c : β}
    (hc : c ∈ m) : ∃ p ∈ l, (p, c) ∈ l.zip m := by
  obtain ⟨i, hi, rfl⟩ := List.mem_iff_getElem.1 hc
  have hi' : i < (l.zip m).length := by
    rw [List.length_zip]
    omega
  refine ⟨l[i], List.getElem_mem _, ?_⟩
  rw [← List.getElem_zip (h := hi')]
  exact List.getElem_mem hi'

/-- A request keeps the colours that its style has a use for, beside the points they are of. -/
theorem Request.mem_zip_of_assemble {colors : List Rgba} {breaks : List Nat} {s : Settings}
    {q : Point × Rgba}
    (hq : q ∈ (assemble points colors breaks s).points.zip (assemble points colors breaks s).colors) :
    q ∈ points.zip colors := by
  simp only [assemble] at hq
  cases hstyle : s.style.drawStyle with
  | points =>
    rw [hstyle] at hq
    exact hq
  | lines | connectedLine =>
    rw [hstyle] at hq
    exact mem_zip_take hq

/-- Coordinates of at most `4e307` have a distance. -/
theorem hypot_isFinite_of_le {p : Point} (hp : p.isFinite = true) (hx : p.x.abs ≤ 4e307)
    (hy : p.y.abs ≤ 4e307) : (hypot p.x p.y).isFinite = true := by
  obtain ⟨hx', hy'⟩ := Bool.and_eq_true_iff.1 hp
  have hlimit : (4e307 : Float).isFinite = true := by decide +kernel
  have hless : (4e307 : Float) ≤ Float.ofBits 0x7fd0000000000000 := by decide +kernel
  rw [le_iff_value hlimit rfl, value_power (show unpacked (Float.ofBits 0x7fd0000000000000) =
    .finite .positive (2 ^ 52) 970 (by decide) from rfl)] at hless
  rw [le_iff_value ((isFinite_abs _).trans hx') hlimit, value_abs] at hx
  rw [le_iff_value ((isFinite_abs _).trans hy') hlimit, value_abs] at hy
  exact hypot_isFinite hx' hy' (hx.trans hless) (hy.trans hless)

theorem Request.assemble_colors_length (points : List Point) {colors : List Rgba}
    (breaks : List Nat) (s : Settings) (h : colors.length = points.length) :
    (assemble points colors breaks s).colors.length ≤ points.length := by
  simp only [assemble]
  cases s.style.drawStyle with
  | points => exact h.le
  | lines | connectedLine => exact (List.length_take_le' _ _).trans h.le

namespace Generation

variable {s : Settings} {seed drawn : UInt64}

/-- A drawing has at most two points for every sample, the second one where it is mirrored. -/
theorem Run.length_points_le (r : Run s seed) : r.points.length ≤ 2 * s.sampleCount := by
  have hreach : r.reach ≤ 2 * s.sampleCount := by
    rw [← r.total_eq, reach]
    split <;> omega
  refine le_trans (List.length_filterMap_le _ _) ?_
  rwa [List.length_range]

/-- **The colours of a drawing.** If the colours of the settings have channels in `[0, 1]`, every
point of a generated drawing that has a colour has one with the opacity of the settings, in every
mode. Its channels lie in `[0, 1]`, too; only in a gradient by distance those of a point whose
distance is beyond all doubles are no numbers. So all channels lie in `[0, 1]` in the other modes,
and wherever no coordinate is greater than `4e307`. -/
theorem generate_colored {g : Generation} (h : (generate s drawn).value = .ok g)
    (hcolor : s.color.InRange) (hfirst : s.color1.InRange) (hlast : s.color2.InRange) :
    g.request.colors.length ≤ g.request.points.length ∧
      (∀ q ∈ g.request.points.zip g.request.colors, Colored s.colorMode s.alpha q.1 q.2) ∧
      ((s.colorMode ≠ .radialGradient ∨
          ∀ p ∈ g.request.points, p.x.abs ≤ 4e307 ∧ p.y.abs ≤ 4e307) →
        ∀ c ∈ g.request.colors, c.InRange) := by
  have hvalid : s.validate = .ok () := validate_of_withSeed h
  obtain ⟨r, -, rfl⟩ := exists_run h
  have hcount : (r.points.map Stepped.point).length ≤ 2 ^ 53 := by
    have hpoints := r.length_points_le
    have hsamples : s.sampleCount ≤ 1000000 := Settings.sampleCount_le_of_validate hvalid
    rw [List.length_map]
    omega
  have hlength : r.generation.request.colors.length ≤ r.generation.request.points.length :=
    Request.assemble_colors_length _ _ s (ColorScheme.colors_length _ _ _)
  have hcolored (q : Point × Rgba)
      (hq : q ∈ r.generation.request.points.zip r.generation.request.colors) :
      Colored s.colorMode s.alpha q.1 q.2 :=
    ColorScheme.colors_colored hcolor hfirst hlast (fun p hp => r.points_isFinite hp) hcount _
      (Request.mem_zip_of_assemble hq)
  refine ⟨hlength, hcolored, fun hmode c hc => ?_⟩
  -- every colour is that of a point, and none of these is too far away
  obtain ⟨p, hp, hpair⟩ := exists_mem_zip hlength hc
  have hchannels := (hcolored _ hpair).channels
  rw [if_neg] at hchannels
  · exact hchannels
  · rintro ⟨hradial, hinfinite⟩
    rcases hmode with hmode | hsmall
    · exact hmode hradial
    · obtain ⟨hx, hy⟩ := hsmall p hp
      rw [hypot_isFinite_of_le (r.points_isFinite hp) hx hy] at hinfinite
      cases hinfinite

/-- Two points, of which the second one is finite and farther away than any double. -/
def farGradient : Settings :=
  { Settings.default with
    f1 := "1.5e308 * x", f2 := "1.5e308 * x", domain := (0.0, 1.0), sampleCount := 2,
    colorMode := .radialGradient, seed := some 7 }

/-- The nearer point of the two has a colour all the same. -/
theorem generate_colored_far :
    ∃ g, (generate farGradient 0).value = .ok g ∧
      ∀ q ∈ g.request.points.zip g.request.colors, Colored .radialGradient 0.5 q.1 q.2 := by
  have hdrawn : (generate farGradient 0).value.isOk = true := by decide +kernel
  cases hg : (generate farGradient 0).value with
  | error fault =>
    rw [hg] at hdrawn
    cases hdrawn
  | ok g =>
    obtain ⟨-, hcolored, -⟩ :=
      generate_colored hg (by decide +kernel) (by decide +kernel) (by decide +kernel)
    exact ⟨g, rfl, hcolored⟩

/-- A point of a drawing can have a colour that is none, although all colours of the settings have
channels in `[0, 1]`. -/
theorem farGradient_noNumber :
    farGradient.validate = .ok () ∧ farGradient.color.InRange ∧ farGradient.color1.InRange ∧
      farGradient.color2.InRange ∧ farGradient.backgroundColor.InRange ∧
        ∃ g, (generate farGradient 0).value = .ok g ∧
          ∃ c ∈ g.request.colors, c.NoNumber ∧ ¬c.InRange := by
  have hany : (generate farGradient 0).value.toOption.any (fun g =>
      g.request.colors.any fun c => decide (c.NoNumber ∧ ¬c.InRange)) = true := by decide +kernel
  refine ⟨rfl, by decide +kernel, by decide +kernel, by decide +kernel, by decide +kernel, ?_⟩
  cases hg : (generate farGradient 0).value with
  | error fault =>
    rw [hg] at hany
    cases hany
  | ok g =>
    rw [hg] at hany
    obtain ⟨c, hc, hnone⟩ := List.any_eq_true.1 hany
    exact ⟨g, rfl, c, hc, of_decide_eq_true hnone⟩

end Generation

end CurveArt
