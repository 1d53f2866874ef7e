import CurveArt.Drawing.Canvas
import CurveArt.Proofs.Drawing.Lookup

/-!
# What a request has drawn

Both kinds of pictures look the colour of a mark up by its position, with black where there is none,
and search the breaks for every segment. On a well-formed request neither can go wrong: every mark
has a colour of its own, and a segment is drawn exactly if it is no break. What is drawn can then be
said without positions, as lists of coloured points and segments.

Main results:

* `Request.WellFormed.holds_breaks`: searching the breaks finds the segments that are left out.
* `Svg.drawing_eq_marks`: the elements of a vector picture.
* `Canvas.drawn_eq_painted`: the same marks, painted one after the other.
-/

namespace CurveArt

/-! ## Well-formed requests -/

namespace Request

/-- How many colours a request of each style needs. -/
def colorCount (r : Request) : Nat :=
  match r.style with
  | .points => r.points.length
  | .lines => r.points.length - 1
  | .connectedLine => 1

/-- What pictures rely on. -/
structure WellFormed (r : Request) : Prop where
  points_ne_nil : r.points ≠ []
  finite : ∀ p ∈ r.points, p.isFinite = true
  colors_length : r.colors.length = r.colorCount
  breaks_increasing : r.breaks.Pairwise (· < ·)
  /-- A break is the position of a segment. -/
  breaks_lt : ∀ i ∈ r.breaks, i + 1 < r.points.length
  breaks_of_lines : r.style ≠ .lines → r.breaks = []

/-- The points with their colours. -/
def dots (r : Request) : List (Rgba × Point) :=
  r.colors.zip r.points

/-- The segments with their colours, those at a break included. -/
def segments (r : Request) : List (Rgba × Point × Point) :=
  r.colors.zip (r.points.zip (r.points.drop 1))

/-- The segments at the positions that are kept. -/
def strokes (r : Request) (keep : Nat → Bool) : List (Rgba × Point × Point) :=
  (r.segments.zipIdx.filter fun m => keep m.2).map Prod.fst

end Request

/-! ## Marks with their colours -/

/-- With a colour for each mark, looking colours up by position gives every mark its own. -/
theorem zipIdx_colored {α : Type} {colors : List Rgba} {marks : List α}
    (h : colors.length = marks.length) :
    (marks.zipIdx.map fun m => (colors.toArray.getD m.2 Rgba.black, m.1)) = colors.zip marks := by
  refine List.ext_getElem (by simp [h]) fun i hi hi' => ?_
  have hcolor : i < colors.length := by
    simp only [List.length_map, List.length_zipIdx] at hi
    omega
  simp [hcolor]

/-- The same for the marks at some of the positions only. -/
theorem zipIdx_colored_filter {α : Type} {colors : List Rgba} {marks : List α} (keep : Nat → Bool)
    (h : colors.length = marks.length) :
    ((marks.zipIdx.filter fun m => keep m.2).map
        fun m => (colors.toArray.getD m.2 Rgba.black, m.1)) =
      ((colors.zip marks).zipIdx.filter fun m => keep m.2).map Prod.fst := by
  -- a mark keeps its position when it gets its colour
  have hpositions : (colors.zip marks).zipIdx =
      marks.zipIdx.map fun m => ((colors.toArray.getD m.2 Rgba.black, m.1), m.2) := by
    rw [← zipIdx_colored h, List.zipIdx_map]
    refine List.ext_getElem (by simp) fun i hi hi' => ?_
    simp
  rw [hpositions, List.filter_map, List.map_map]
  rfl

/-- The segments between the images of points are the images of the segments. -/
theorem zip_drop_map {α β : Type} (f : α → β) (points : List α) :
    (points.map f).zip ((points.map f).drop 1) =
      (points.zip (points.drop 1)).map fun m => (f m.1, f m.2) := by
  rw [← List.map_drop, List.zip_map]
  rfl

/-- What is skipped at some positions is done at the others. -/
theorem flatMap_skip {α β : Type} (skip : Nat → Bool) (f : α × Nat → List β) (l : List (α × Nat)) :
    (l.flatMap fun m => if skip m.2 then [] else f m) =
      (l.filter fun m => !skip m.2).flatMap f := by
  induction l with
  | nil => rfl
  | cons m l ih => cases hskip : skip m.2 <;> simp [hskip, ih]

theorem foldl_skip {α β : Type} (skip : Nat → Bool) (f : β → α × Nat → β) (init : β)
    (l : List (α × Nat)) :
    (l.foldl (fun b m => if skip m.2 then b else f b m) init) =
      (l.filter fun m => !skip m.2).foldl f init := by
  induction l generalizing init with
  | nil => rfl
  | cons m l ih => cases hskip : skip m.2 <;> simp [hskip, ih]

theorem foldl_zipIdx {α β : Type} (f : β → α → β) (init : β) (l : List α) :
    (l.zipIdx.foldl (fun b m => f b m.1) init) = l.foldl f init := by
  rw [← List.foldl_map (f := Prod.fst), List.zipIdx_map_fst]

/-! ## Pictures -/

variable {f : Figure} {r : Request}

namespace Request

/-- Which segments are drawn. -/
def isDrawn (r : Request) (i : Nat) : Bool :=
  decide (i ∉ r.breaks)

/-- Searching the breaks finds exactly the breaks. -/
theorem WellFormed.holds_breaks (h : r.WellFormed) (i : Nat) :
    holds r.breaks.toArray i = true ↔ i ∈ r.breaks := by
  rw [holds_iff h.breaks_increasing, List.mem_toArray]

theorem WellFormed.not_holds (h : r.WellFormed) (i : Nat) :
    (!holds r.breaks.toArray i) = r.isDrawn i := by
  rw [isDrawn, Bool.eq_iff_iff, Bool.not_eq_true', decide_eq_true_iff, ← h.holds_breaks,
    Bool.not_eq_true]

theorem WellFormed.colors_of_points (h : r.WellFormed) (hstyle : r.style = .points) :
    r.colors.length = r.points.length := by
  rw [h.colors_length, colorCount, hstyle]

theorem WellFormed.colors_of_lines (h : r.WellFormed) (hstyle : r.style = .lines) :
    r.colors.length = (r.points.zip (r.points.drop 1)).length := by
  rw [h.colors_length, colorCount, hstyle, List.length_zip, List.length_drop]
  show r.points.length - 1 = _
  omega

theorem WellFormed.colors_of_connectedLine (h : r.WellFormed) (hstyle : r.style = .connectedLine) :
    ∃ c, r.colors = [c] := by
  rw [← List.length_eq_one_iff, h.colors_length, colorCount, hstyle]

/-- The segments that are drawn, with colours looked up and breaks searched for. -/
theorem WellFormed.strokes_eq (h : r.WellFormed) (hstyle : r.style = .lines)
    (place : Point → Int × Int) :
    ((((r.points.map place).zip ((r.points.map place).drop 1)).zipIdx.filter
        fun m => !holds r.breaks.toArray m.2).map
          fun m => (r.colors.toArray.getD m.2 Rgba.black, m.1)) =
      (r.strokes r.isDrawn).map fun m => (m.1, place m.2.1, place m.2.2) := by
  have hcolors := h.colors_of_lines hstyle
  simp only [h.not_holds]
  rw [zip_drop_map, zipIdx_colored_filter r.isDrawn (by rw [List.length_map, hcolors]), strokes,
    segments, List.zip_map_right, List.zipIdx_map, List.filter_map, List.map_map, List.map_map]
  rfl

end Request

namespace Svg

variable (dpi width height : Nat)

/-- Every point is a dot in its own colour. -/
theorem drawing_points (h : f.request.WellFormed) (hstyle : f.request.style = .points) :
    drawing f dpi width height =
      f.request.dots.flatMap fun m =>
        dot m.1 (strokeOf f dpi) (f.pixelOf width height m.2) := by
  rw [drawing, hstyle, Request.dots, ← zipIdx_colored (h.colors_of_points hstyle), List.flatMap_map,
    List.zipIdx_map, List.flatMap_map]
  rfl

/-- The segments that are no breaks are lines in their own colours. -/
theorem drawing_lines (h : f.request.WellFormed) (hstyle : f.request.style = .lines) :
    drawing f dpi width height =
      (f.request.strokes f.request.isDrawn).flatMap fun m =>
        path m.1 (strokeOf f dpi) [f.pixelOf width height m.2.1, f.pixelOf width height m.2.2] := by
  have hstrokes := h.strokes_eq hstyle (f.pixelOf width height)
  have hdrawing := flatMap_skip (holds f.request.breaks.toArray)
    (fun m => path (f.request.colors.toArray.getD m.2 Rgba.black) (strokeOf f dpi) [m.1.1, m.1.2])
    (((f.request.points.map (f.pixelOf width height)).zip
      ((f.request.points.map (f.pixelOf width height)).drop 1)).zipIdx)
  rw [drawing, hstyle]
  refine hdrawing.trans ?_
  -- what is left are the segments that are drawn, each with the colour at its position
  have hmapped := congrArg (List.flatMap fun m => path m.1 (strokeOf f dpi) [m.2.1, m.2.2]) hstrokes
  rw [List.flatMap_map, List.flatMap_map] at hmapped
  exact hmapped

/-- All points are on one line in the one colour. -/
theorem drawing_connectedLine (h : f.request.WellFormed)
    (hstyle : f.request.style = .connectedLine) :
    drawing f dpi width height =
      f.request.colors.flatMap fun c =>
        path c (strokeOf f dpi) (f.request.points.map (f.pixelOf width height)) := by
  obtain ⟨c, hc⟩ := h.colors_of_connectedLine hstyle
  rw [drawing, hstyle, hc]
  simp

/-- The elements of a figure, each with a colour of its request. -/
def marks (f : Figure) (dpi width height : Nat) : List String :=
  let stroke := strokeOf f dpi
  let place := f.pixelOf width height
  match f.request.style with
  | .points => f.request.dots.flatMap fun m => dot m.1 stroke (place m.2)
  | .lines =>
    (f.request.strokes f.request.isDrawn).flatMap fun m =>
      path m.1 stroke [place m.2.1, place m.2.2]
  | .connectedLine => f.request.colors.flatMap fun c => path c stroke (f.request.points.map place)

/-- Neither the colour for a missing one nor the order of the breaks matters to what is drawn. -/
theorem drawing_eq_marks (h : f.request.WellFormed) :
    drawing f dpi width height = marks f dpi width height := by
  rw [marks]
  split
  · next hstyle => exact drawing_points dpi width height h hstyle
  · next hstyle => exact drawing_lines dpi width height h hstyle
  · next hstyle => exact drawing_connectedLine dpi width height h hstyle

end Svg

namespace Canvas

variable (canvas : Canvas) (dpi : Nat)

/-- Dots are painted in the order of the points. -/
theorem drawn_points (h : f.request.WellFormed) (hstyle : f.request.style = .points) :
    canvas.drawn f dpi =
      f.request.dots.foldl (fun canvas' m =>
        canvas'.layAll m.1 (disc (min (Svg.strokeOf f dpi).toNat (canvas.width + canvas.height))
          (f.pixelOf canvas.width canvas.height m.2))) canvas := by
  rw [drawn, hstyle, Request.dots, ← zipIdx_colored (h.colors_of_points hstyle), List.foldl_map,
    List.zipIdx_map, List.foldl_map]
  rfl

/-- The segments that are no breaks are painted in their order. -/
theorem drawn_lines (h : f.request.WellFormed) (hstyle : f.request.style = .lines) :
    canvas.drawn f dpi =
      (f.request.strokes f.request.isDrawn).foldl (fun canvas' m =>
        canvas'.laySegment m.1 (Svg.strokeOf f dpi).toNat
          (f.pixelOf canvas.width canvas.height m.2.1)
          (f.pixelOf canvas.width canvas.height m.2.2)) canvas := by
  have hstrokes := h.strokes_eq hstyle (f.pixelOf canvas.width canvas.height)
  have hdrawn := foldl_skip (holds f.request.breaks.toArray)
    (fun (canvas' : Canvas) m =>
      canvas'.laySegment (f.request.colors.toArray.getD m.2 Rgba.black)
        (Svg.strokeOf f dpi).toNat m.1.1 m.1.2) canvas
    (((f.request.points.map (f.pixelOf canvas.width canvas.height)).zip
      ((f.request.points.map (f.pixelOf canvas.width canvas.height)).drop 1)).zipIdx)
  rw [drawn, hstyle]
  refine hdrawn.trans ?_
  -- the same segments in the same order
  have hmapped := congrArg (List.foldl (fun (canvas' : Canvas) m =>
    canvas'.laySegment m.1 (Svg.strokeOf f dpi).toNat m.2.1 m.2.2) canvas) hstrokes
  rw [List.foldl_map, List.foldl_map] at hmapped
  exact hmapped

/-- All segments are painted in the one colour. -/
theorem drawn_connectedLine (h : f.request.WellFormed)
    (hstyle : f.request.style = .connectedLine) :
    canvas.drawn f dpi =
      f.request.colors.foldl (fun canvas' c =>
        (f.request.points.zip (f.request.points.drop 1)).foldl (fun canvas' m =>
          canvas'.laySegment c (Svg.strokeOf f dpi).toNat
            (f.pixelOf canvas.width canvas.height m.1)
            (f.pixelOf canvas.width canvas.height m.2)) canvas') canvas := by
  obtain ⟨c, hc⟩ := h.colors_of_connectedLine hstyle
  simp only [drawn, hstyle, hc, List.foldl_cons, List.foldl_nil]
  rw [zip_drop_map, List.zipIdx_map, List.foldl_map]
  exact foldl_zipIdx (fun (canvas' : Canvas) (m : Point × Point) =>
    canvas'.laySegment c (Svg.strokeOf f dpi).toNat (f.pixelOf canvas.width canvas.height m.1)
      (f.pixelOf canvas.width canvas.height m.2)) canvas _

/-- A figure painted over a canvas, every mark in a colour of its request. -/
def painted (canvas : Canvas) (f : Figure) (dpi : Nat) : Canvas :=
  let size := (Svg.strokeOf f dpi).toNat
  let place := f.pixelOf canvas.width canvas.height
  match f.request.style with
  | .points =>
    f.request.dots.foldl (fun canvas' m =>
      canvas'.layAll m.1 (disc (min size (canvas.width + canvas.height)) (place m.2))) canvas
  | .lines =>
    (f.request.strokes f.request.isDrawn).foldl (fun canvas' m =>
      canvas'.laySegment m.1 size (place m.2.1) (place m.2.2)) canvas
  | .connectedLine =>
    f.request.colors.foldl (fun canvas' c =>
      (f.request.points.zip (f.request.points.drop 1)).foldl (fun canvas' m =>
        canvas'.laySegment c size (place m.1) (place m.2)) canvas') canvas

theorem drawn_eq_painted (h : f.request.WellFormed) :
    canvas.drawn f dpi = canvas.painted f dpi := by
  rw [painted]
  split
  · next hstyle => exact drawn_points canvas dpi h hstyle
  · next hstyle => exact drawn_lines canvas dpi h hstyle
  · next hstyle => exact drawn_connectedLine canvas dpi h hstyle

end Canvas

end CurveArt
