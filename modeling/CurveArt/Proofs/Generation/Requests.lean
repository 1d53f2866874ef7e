import CurveArt.Proofs.Curve.Gaps
import CurveArt.Proofs.Drawing.Marks
import CurveArt.Proofs.Generation.Run

/-!
# What a generation hands over

A picture is drawn from a request without any check, so the request has to be right: points that are
finite, colours for all marks, breaks in order. Each of these comes from another stage. Settling
leaves finite points under either policy, colouring gives one colour to each of them, and putting
the request together cuts colours and breaks to what the style can use.

Main results:

* `Request.assemble_wellFormed`: a request put together from finite points is well-formed.
* `Generation.Run.request_wellFormed`: so is that of every run which leaves a point.
* `Generation.generate_wellFormed`: every generated request is well-formed, and drawn mark by mark.
-/

namespace CurveArt

/-! ## One colour for each point -/

theorem ColorScheme.linearPlaces_length (n : Nat) : (linearPlaces n).length = n := by
  rw [linearPlaces, List.length_map, List.length_range]

theorem ColorScheme.radialPlaces_length (points : List Point) :
    (radialPlaces points).length = points.length := by
  rw [radialPlaces, List.length_map, List.length_map]

theorem ColorScheme.colors_length (scheme : ColorScheme) (points : List Point) (opacity : Float) :
    (scheme.colors points opacity).length = points.length := by
  cases scheme with
  | solid color => exact List.length_replicate
  | linear first last => exact (List.length_map _).trans (linearPlaces_length _)
  | radial near far => exact (List.length_map _).trans (radialPlaces_length _)

/-! ## Settled points are finite -/

/-- Whatever a policy leaves of a point is finite. -/
theorem Point.settled?_isFinite {policy : FailurePolicy} {p q : Point}
    (h : p.settled? policy = some q) : q.isFinite = true := by
  cases policy with
  | drop =>
    rw [settled?] at h
    split at h
    · next hfinite =>
      obtain rfl := Option.some.inj h
      exact hfinite
    · cases h
  | zero =>
    obtain rfl := Option.some.inj h
    exact p.finiteOrZero_isFinite

/-! ## Requests -/

namespace Request

/-- Finite points with a colour for each and ascending breaks make a well-formed request in every
style. -/
theorem assemble_wellFormed {points : List Point} {colors : List Rgba} {breaks : List Nat}
    (s : Settings) (hpoints : points ≠ []) (hfinite : ∀ p ∈ points, p.isFinite = true)
    (hcolors : colors.length = points.length) (hbreaks : breaks.Pairwise (· < ·)) :
    (assemble points colors breaks s).WellFormed := by
  have hpos : 0 < points.length := List.length_pos_iff.2 hpoints
  refine ⟨hpoints, hfinite, ?_, ?_, ?_, ?_⟩
  · -- a point to spare is what makes the colours of segments and of the one path enough
    simp only [assemble, colorCount]
    cases s.style.drawStyle with
    | points => exact hcolors
    | lines | connectedLine =>
      simp only [List.length_take]
      omega
  · simp only [assemble]
    cases s.style.drawStyle with
    | lines => exact hbreaks.filter _
    | points | connectedLine => exact .nil
  · -- breaks that are no positions of segments are dropped, and other styles have none
    intro i hi
    simp only [assemble] at hi ⊢
    cases hstyle : s.style.drawStyle with
    | lines =>
      rw [hstyle] at hi
      exact of_decide_eq_true (List.mem_filter.1 hi).2
    | points | connectedLine =>
      rw [hstyle] at hi
      cases hi
  · intro hstyle
    cases hdraw : s.style.drawStyle with
    | lines => exact absurd hdraw hstyle
    | points | connectedLine => simp only [assemble, hdraw]

end Request

namespace Generation

variable {s : Settings} {seed drawn : UInt64}

namespace Run

variable (r : Run s seed)

/-- The points of a run are finite, under either policy. -/
theorem points_isFinite {p : Point} (h : p ∈ r.points.map Stepped.point) : p.isFinite = true := by
  obtain ⟨q, hq, rfl⟩ := List.mem_map.1 h
  obtain ⟨-, himage⟩ := Curve.mem_along.1 hq
  obtain ⟨p, -, hsettled⟩ := Option.bind_eq_some_iff.1 himage
  exact Point.settled?_isFinite hsettled

/-- The request of a run that leaves a point is well-formed. -/
theorem request_wellFormed (h : r.points ≠ []) : r.generation.request.WellFormed := by
  have hne : r.points.map Stepped.point ≠ [] := fun hnil => h (List.map_eq_nil_iff.1 hnil)
  exact Request.assemble_wellFormed s hne (fun p hp => r.points_isFinite hp)
    (ColorScheme.colors_length _ _ _) (Curve.breaks_increasing _)

end Run

/-- **Every generated request is well-formed.** It has a point, all of its points are finite, there
is exactly one colour for every mark of its style, and its breaks are positions of segments in
ascending order. The breaks that a search finds are then those of the request, and either kind of
picture is drawn in the colours of the request alone. All steps count, and no more fail than there
are. -/
theorem generate_wellFormed {g : Generation} (h : (generate s drawn).value = .ok g) :
    g.request.WellFormed ∧
      (∀ i, holds g.request.breaks.toArray i = true ↔ i ∈ g.request.breaks) ∧
      (∀ f : Figure, f.request = g.request →
        (∀ dpi width height, Svg.drawing f dpi width height = Svg.marks f dpi width height) ∧
        ∀ (canvas : Canvas) (dpi : Nat), canvas.drawn f dpi = canvas.painted f dpi) ∧
      g.total = s.sampleCount ∧ g.failed ≤ g.total := by
  obtain ⟨r, hpoints, rfl⟩ := exists_run h
  have hwell := r.request_wellFormed hpoints
  refine ⟨hwell, hwell.holds_breaks, fun f hf => ⟨fun dpi width height => ?_, fun canvas dpi => ?_⟩,
    r.total_eq, List.countP_le_length⟩
  · exact Svg.drawing_eq_marks dpi width height (hf ▸ hwell)
  · exact Canvas.drawn_eq_painted canvas dpi (hf ▸ hwell)

/-- A quotient around its pole in three steps, mirrored. -/
def aroundPole (style : Style) : Settings :=
  { Settings.default with
    style, f1 := "x", f2 := "1 / x", domain := (-1.0, 1.0), sampleCount := 3, mirror := true }

/-- On one path through the pole the failing step gets a zero. -/
theorem generate_wellFormed_pole :
    ∃ g, (generate (aroundPole .connectedLine) 7).value = .ok g ∧ g.request.WellFormed ∧
      g.total = 3 := by
  have hdrawn : (generate (aroundPole .connectedLine) 7).value.isOk = true := by decide +kernel
  cases hg : (generate (aroundPole .connectedLine) 7).value with
  | error fault =>
    rw [hg] at hdrawn
    cases hdrawn
  | ok g =>
    obtain ⟨hwell, -, -, htotal, -⟩ := generate_wellFormed hg
    exact ⟨g, rfl, hwell, htotal⟩

end Generation

end CurveArt
