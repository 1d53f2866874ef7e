import CurveArt.Proofs.Color.Range
import Mathlib.Data.EReal.Inv

/-!
# What a gradient is meant to be

With doubles the laws of a gradient hold up to rounding only. They are laws of the same computation
with exact numbers, so the computation is stated here for any `Arithmetic`: with `doubles` it is the
one that colours points, with `exact` it is over the real numbers, to which the two infinities are
added since the searches for the nearest and the farthest distance start from them.

Main results:

* `Arithmetic.colors_doubles`: the computation with doubles.
* `radialPlaces_exact`: the nearest and the farthest distance, and the places between them.
* `gradient_law`: where the colours of a gradient lie.
-/

namespace CurveArt

/-! ## Colours with any arithmetic -/

/-- A colour with channels of any kind. -/
structure Tint (α : Type) where
  r : α
  g : α
  b : α
  a : α

inductive Channel where
  | red
  | green
  | blue

namespace Tint

variable {α β : Type}

def map (f : α → β) (c : Tint α) : Tint β :=
  ⟨f c.r, f c.g, f c.b, f c.a⟩

def withOpacity (c : Tint α) (a : α) : Tint α :=
  { c with a }

def channel (c : Tint α) : Channel → α
  | .red => c.r
  | .green => c.g
  | .blue => c.b

def ofRgba (c : Rgba) : Tint Float :=
  ⟨c.r, c.g, c.b, c.a⟩

def rgba (c : Tint Float) : Rgba :=
  ⟨c.r, c.g, c.b, c.a⟩

end Tint

/-- A colour scheme with colours of any kind. -/
inductive Gradient (α : Type) where
  | solid (color : Tint α)
  | linear (first last : Tint α)
  | radial (near far : Tint α)

def Gradient.ofScheme : ColorScheme → Gradient Float
  | .solid color => .solid (.ofRgba color)
  | .linear first last => .linear (.ofRgba first) (.ofRgba last)
  | .radial near far => .radial (.ofRgba near) (.ofRgba far)

/-- What colours are computed with. -/
structure Arithmetic (α : Type) where
  one : α
  add : α → α → α
  sub : α → α → α
  mul : α → α → α
  div : α → α → α
  count : Nat → α
  least : α → α → α
  greatest : α → α → α
  /-- Where the search for the least distance starts. -/
  top : α
  /-- Where the search for the greatest distance starts. -/
  bottom : α
  /-- What keeps places by distance below one. -/
  margin : α

namespace Arithmetic

section Colors

variable {α : Type} (A : Arithmetic α)

def mix (u v t : α) : α :=
  A.add (A.mul u (A.sub A.one t)) (A.mul v t)

def blend (c d : Tint α) (t : α) : Tint α :=
  ⟨A.mix c.r d.r t, A.mix c.g d.g t, A.mix c.b d.b t, A.mix c.a d.a t⟩

def linearPlaces (n : Nat) : List α :=
  (List.range n).map fun i => A.div (A.count i) (A.count (max (n - 1) 1))

def radialPlaces (distances : List α) : List α :=
  let nearest := distances.foldl A.least A.top
  let farthest := distances.foldl A.greatest A.bottom
  distances.map fun d => A.div (A.sub d nearest) (A.add (A.sub farthest nearest) A.margin)

/-- The colours at the given places. -/
def shaded (first last : Tint α) (opacity : α) (places : List α) : List (Tint α) :=
  places.map fun t => (A.blend first last t).withOpacity opacity

/-- One colour for each distance. -/
def colors (gradient : Gradient α) (distances : List α) (opacity : α) : List (Tint α) :=
  match gradient with
  | .solid color => List.replicate distances.length (color.withOpacity opacity)
  | .linear first last => A.shaded first last opacity (A.linearPlaces distances.length)
  | .radial near far => A.shaded near far opacity (A.radialPlaces distances)

/-- Whatever the arithmetic, there is one colour for each distance, with the opacity asked for. -/
theorem colors_length (gradient : Gradient α) (distances : List α) (opacity : α) :
    (A.colors gradient distances opacity).length = distances.length := by
  cases gradient <;> simp [colors, shaded, linearPlaces, radialPlaces]

theorem opacity_of_mem {gradient : Gradient α} {distances : List α} {opacity : α} {c : Tint α}
    (h : c ∈ A.colors gradient distances opacity) : c.a = opacity := by
  cases gradient with
  | solid color =>
    rw [(List.mem_replicate.1 h).2]
    rfl
  | linear first last =>
    obtain ⟨t, -, rfl⟩ := List.mem_map.1 h
    rfl
  | radial near far =>
    obtain ⟨t, -, rfl⟩ := List.mem_map.1 h
    rfl

end Colors

/-- The arithmetic that the program has. -/
def doubles : Arithmetic Float where
  one := 1.0
  add := (· + ·)
  sub := (· - ·)
  mul := (· * ·)
  div := (· / ·)
  count := Binary64.ofCount
  least := Binary64.least
  greatest := Binary64.greatest
  top := Binary64.infinity
  bottom := -Binary64.infinity
  margin := ColorScheme.radialMargin

/-- Points are coloured by this computation, with doubles. -/
theorem colors_doubles (scheme : ColorScheme) (points : List Point) (opacity : Float) :
    scheme.colors points opacity =
      (doubles.colors (.ofScheme scheme) (points.map fun p => Binary64.hypot p.x p.y) opacity).map
        Tint.rgba := by
  cases scheme with
  | solid color =>
    simp only [ColorScheme.colors, Gradient.ofScheme, colors, List.length_map, List.map_replicate]
    rfl
  | linear first last =>
    simp only [ColorScheme.colors, Gradient.ofScheme, colors, shaded, List.length_map, List.map_map]
    rfl
  | radial near far =>
    simp only [ColorScheme.colors, Gradient.ofScheme, colors, shaded, List.map_map]
    rfl

/-! ## Exact colours -/

/-- Real numbers and the two infinities. -/
noncomputable def exact (margin : ℝ) : Arithmetic EReal where
  one := 1
  add := (· + ·)
  sub := (· - ·)
  mul := (· * ·)
  div := (· / ·)
  count n := (n : ℝ)
  least := min
  greatest := max
  top := ⊤
  bottom := ⊥
  margin := margin

end Arithmetic

open Arithmetic

/-- A real number among the extended ones. -/
def Tint.extended (c : Tint ℝ) : Tint EReal :=
  c.map Real.toEReal

/-- The colour at a place on the way from one to another, with the opacity of the drawing. -/
def Tint.toward (c d : Tint ℝ) (opacity t : ℝ) : Tint ℝ :=
  ⟨c.r * (1 - t) + d.r * t, c.g * (1 - t) + d.g * t, c.b * (1 - t) + d.b * t, opacity⟩

variable {margin : ℝ}

theorem mix_exact (u v t : ℝ) :
    (exact margin).mix u v t = ((u * (1 - t) + v * t : ℝ) : EReal) := by
  simp only [mix, exact]
  push_cast
  rfl

theorem shaded_exact (c d : Tint ℝ) (opacity : ℝ) (places : List ℝ) :
    (exact margin).shaded c.extended d.extended opacity (places.map Real.toEReal) =
      places.map fun t => (c.toward d opacity t).extended := by
  rw [shaded, List.map_map]
  refine List.map_congr_left fun t _ => ?_
  simp only [Function.comp_apply, blend, Tint.extended, Tint.map, Tint.withOpacity, Tint.toward,
    mix_exact]

/-! ### Places in a sequence -/

/-- The place of point `i` among `n`. -/
noncomputable def sequencePlace (n i : Nat) : ℝ :=
  i / (max (n - 1) 1 : Nat)

theorem linearPlaces_exact (n : Nat) : (exact margin).linearPlaces n =
    ((List.range n).map (sequencePlace n)).map Real.toEReal := by
  rw [linearPlaces, List.map_map]
  exact List.map_congr_left fun i _ => (EReal.coe_div _ _).symm

theorem sequencePlace_zero (n : Nat) : sequencePlace n 0 = 0 := by
  rw [sequencePlace, Nat.cast_zero, zero_div]

theorem sequencePlace_last {n : Nat} (hn : 2 ≤ n) : sequencePlace n (n - 1) = 1 := by
  rw [sequencePlace, max_eq_left (by omega)]
  exact div_self (Nat.cast_ne_zero.2 (by omega))

theorem sequencePlace_mono (n : Nat) {i j : Nat} (h : i ≤ j) :
    sequencePlace n i ≤ sequencePlace n j :=
  div_le_div_of_nonneg_right (Nat.cast_le.2 h) (Nat.cast_nonneg _)

/-! ### Places by distance -/

/-- The place of a distance between the nearest and the farthest one. -/
noncomputable def distancePlace (margin near far d : ℝ) : ℝ :=
  (d - near) / (far - near + margin)

variable {distances : List ℝ}

/-- A search that leaves its start has come to a distance. -/
theorem exists_distance {x start : EReal} (hmem : x ∈ start :: distances.map Real.toEReal)
    (hne : x ≠ start) : ∃ d ∈ distances, (d : EReal) = x :=
  List.mem_map.1 ((List.mem_cons.1 hmem).resolve_left hne)

/-- The search from infinity finds the least of all distances. -/
theorem exists_nearestDistance (hne : distances ≠ []) :
    ∃ near : ℝ, (distances.map Real.toEReal).foldl min ⊤ = near ∧
      IsLeast {d | d ∈ distances} near := by
  obtain ⟨hmem, hle⟩ := List.min?_eq_some_iff.1
    (rfl : (⊤ :: distances.map Real.toEReal).min? = some ((distances.map Real.toEReal).foldl min ⊤))
  have hleast : ∀ x ∈ distances, (distances.map Real.toEReal).foldl min ⊤ ≤ x :=
    fun x hx => hle _ (List.mem_cons_of_mem _ (List.mem_map_of_mem hx))
  -- any distance lies below infinity, and the least of them with it
  obtain ⟨d, hd⟩ := List.exists_mem_of_ne_nil distances hne
  obtain ⟨near, hnear, heq⟩ := exists_distance hmem ((hleast d hd).trans_lt (EReal.coe_lt_top d)).ne
  refine ⟨near, heq.symm, hnear, fun x hx => ?_⟩
  exact EReal.coe_le_coe_iff.1 (heq.trans_le (hleast x hx))

/-- The search from minus infinity finds the greatest. -/
theorem exists_farthestDistance (hne : distances ≠ []) :
    ∃ far : ℝ, (distances.map Real.toEReal).foldl max ⊥ = far ∧
      IsGreatest {d | d ∈ distances} far := by
  obtain ⟨hmem, hle⟩ := List.max?_eq_some_iff.1
    (rfl : (⊥ :: distances.map Real.toEReal).max? = some ((distances.map Real.toEReal).foldl max ⊥))
  have hgreatest : ∀ x ∈ distances, x ≤ (distances.map Real.toEReal).foldl max ⊥ :=
    fun x hx => hle _ (List.mem_cons_of_mem _ (List.mem_map_of_mem hx))
  obtain ⟨d, hd⟩ := List.exists_mem_of_ne_nil distances hne
  obtain ⟨far, hfar, heq⟩ :=
    exists_distance hmem ((EReal.bot_lt_coe d).trans_le (hgreatest d hd)).ne'
  refine ⟨far, heq.symm, hfar, fun x hx => ?_⟩
  exact EReal.coe_le_coe_iff.1 ((hgreatest x hx).trans_eq heq.symm)

/-- The places of distances between the nearest and the farthest of them. -/
theorem radialPlaces_exact (margin : ℝ) (hne : distances ≠ []) :
    ∃ near far : ℝ, IsLeast {d | d ∈ distances} near ∧ IsGreatest {d | d ∈ distances} far ∧
      (exact margin).radialPlaces (distances.map Real.toEReal) =
        (distances.map (distancePlace margin near far)).map Real.toEReal := by
  obtain ⟨near, hnear, hleast⟩ := exists_nearestDistance hne
  obtain ⟨far, hfar, hgreatest⟩ := exists_farthestDistance hne
  refine ⟨near, far, hleast, hgreatest, ?_⟩
  have hnear' : (distances.map Real.toEReal).foldl (exact margin).least (exact margin).top = near :=
    hnear
  have hfar' : (distances.map Real.toEReal).foldl (exact margin).greatest (exact margin).bottom =
      far := hfar
  rw [radialPlaces, hnear', hfar', List.map_map, List.map_map]
  refine List.map_congr_left fun d _ => ?_
  simp only [Function.comp_apply, distancePlace, exact]
  rfl

section Places

variable {near far d d' : ℝ} (hmargin : 0 < margin)
include hmargin

theorem distancePlace_nonneg (hnear : near ≤ d) (hfar : near ≤ far) :
    0 ≤ distancePlace margin near far d :=
  div_nonneg (by linarith) (by linarith)

theorem distancePlace_lt_one (hfar : near ≤ far) (h : d ≤ far) :
    distancePlace margin near far d < 1 := by
  rw [distancePlace, div_lt_one (by linarith)]
  linarith

theorem distancePlace_mono (hfar : near ≤ far) (h : d ≤ d') :
    distancePlace margin near far d ≤ distancePlace margin near far d' :=
  div_le_div_of_nonneg_right (by linarith) (by linarith)

/-- How much the farthest place falls short of one. -/
theorem one_sub_distancePlace (hfar : near ≤ far) :
    1 - distancePlace margin near far far = margin / (far - near + margin) := by
  have hpos : far - near + margin ≠ 0 := by linarith
  rw [distancePlace]
  field_simp
  ring

end Places

/-! ### The way from one colour to another -/

section Toward

variable (c d : Tint ℝ) (opacity : ℝ) (k : Channel) {t t' : ℝ}

theorem Tint.channel_toward (t : ℝ) :
    (c.toward d opacity t).channel k = c.channel k * (1 - t) + d.channel k * t := by
  cases k <;> rfl

theorem Tint.toward_zero : c.toward d opacity 0 = c.withOpacity opacity := by
  simp [toward, withOpacity]

theorem Tint.toward_one : c.toward d opacity 1 = d.withOpacity opacity := by
  simp [toward, withOpacity]

/-- A channel that ends higher rises on the way. -/
theorem Tint.toward_mono (h : c.channel k ≤ d.channel k) (ht : t ≤ t') :
    (c.toward d opacity t).channel k ≤ (c.toward d opacity t').channel k := by
  have hstep := mul_le_mul_of_nonneg_left ht (sub_nonneg.2 h)
  rw [channel_toward, channel_toward]
  linarith

/-- A channel that ends lower falls on the way. -/
theorem Tint.toward_anti (h : d.channel k ≤ c.channel k) (ht : t ≤ t') :
    (c.toward d opacity t').channel k ≤ (c.toward d opacity t).channel k := by
  have hstep := mul_le_mul_of_nonneg_left ht (sub_nonneg.2 h)
  rw [channel_toward, channel_toward]
  linarith

/-- The gap from the start is the part of the way that is behind. -/
theorem Tint.gap_start (ht : 0 ≤ t) :
    |c.channel k - (c.toward d opacity t).channel k| = |c.channel k - d.channel k| * t := by
  rw [channel_toward, show c.channel k - (c.channel k * (1 - t) + d.channel k * t) =
    (c.channel k - d.channel k) * t by ring, abs_mul, abs_of_nonneg ht]

/-- The gap from the end is the part of the way that is ahead. -/
theorem Tint.gap_end (ht : t ≤ 1) :
    |d.channel k - (c.toward d opacity t).channel k| = |c.channel k - d.channel k| * (1 - t) := by
  rw [channel_toward, show d.channel k - (c.channel k * (1 - t) + d.channel k * t) =
    (d.channel k - c.channel k) * (1 - t) by ring, abs_mul, abs_of_nonneg (sub_nonneg.2 ht),
    abs_sub_comm]

end Toward

/-! ## The laws -/

/-- The colours of `n` points, from one colour to another. -/
structure AlongSequence (start finish : Tint ℝ) (opacity : ℝ) (n : Nat) (color : Nat → Tint ℝ) :
    Prop where
  first : color 0 = start.withOpacity opacity
  last : 2 ≤ n → color (n - 1) = finish.withOpacity opacity
  rising : ∀ (k : Channel) {i j : Nat}, start.channel k ≤ finish.channel k → i ≤ j →
    (color i).channel k ≤ (color j).channel k
  falling : ∀ (k : Channel) {i j : Nat}, finish.channel k ≤ start.channel k → i ≤ j →
    (color j).channel k ≤ (color i).channel k

/-- The colours of points at some distances, from the nearest to the farthest. The colour and the
place of a point are functions of its distance, so equal distances have equal colours. -/
structure ByDistance (margin : ℝ) (start finish : Tint ℝ) (opacity : ℝ) (distances : List ℝ)
    (place : ℝ → ℝ) (color : ℝ → Tint ℝ) : Prop where
  place_nonneg : ∀ d ∈ distances, 0 ≤ place d
  place_lt_one : ∀ d ∈ distances, place d < 1
  nearest : ∀ {near : ℝ}, IsLeast {d | d ∈ distances} near →
    color near = start.withOpacity opacity
  /-- The farther point is never closer to the start. -/
  farther : ∀ (k : Channel) {d d' : ℝ}, d ∈ distances → d' ∈ distances → d ≤ d' →
    |start.channel k - (color d).channel k| ≤ |start.channel k - (color d').channel k|
  /-- The margin keeps the farthest point from the end by as little as it is. -/
  farthest : ∀ (k : Channel) {near far : ℝ}, IsLeast {d | d ∈ distances} near →
    IsGreatest {d | d ∈ distances} far → |finish.channel k - (color far).channel k| ≤
      |start.channel k - finish.channel k| * margin / (far - near + margin)

/-- What the colours of points are, computed with exact numbers. -/
structure GradientLaw (margin : ℝ) : Prop where
  /-- The computation that the laws are about is that of the program. -/
  running : ∀ (scheme : ColorScheme) (points : List Point) (opacity : Float),
    scheme.colors points opacity =
      (doubles.colors (.ofScheme scheme) (points.map fun p => Binary64.hypot p.x p.y) opacity).map
        Tint.rgba
  /-- There is one colour for each point, whatever is computed with. -/
  one_each : ∀ {α : Type} (A : Arithmetic α) (gradient : Gradient α) (distances : List α)
    (opacity : α), (A.colors gradient distances opacity).length = distances.length
  opacity : ∀ {α : Type} (A : Arithmetic α) (gradient : Gradient α) (distances : List α)
    (opacity : α), ∀ c ∈ A.colors gradient distances opacity, c.a = opacity
  linear : ∀ (start finish : Tint ℝ) (opacity : ℝ) (distances : List ℝ), ∃ color : Nat → Tint ℝ,
    (exact margin).colors (.linear start.extended finish.extended) (distances.map Real.toEReal)
        opacity = (List.range distances.length).map (fun i => (color i).extended) ∧
      AlongSequence start finish opacity distances.length color
  radial : ∀ (start finish : Tint ℝ) (opacity : ℝ) (distances : List ℝ),
    ∃ (place : ℝ → ℝ) (color : ℝ → Tint ℝ),
      (exact margin).radialPlaces (distances.map Real.toEReal) =
        distances.map (fun d => (place d : EReal)) ∧
      (exact margin).colors (.radial start.extended finish.extended) (distances.map Real.toEReal)
          opacity = distances.map (fun d => (color d).extended) ∧
        ByDistance margin start finish opacity distances place color

section Laws

variable (start finish : Tint ℝ) (opacity : ℝ)

/-- **Colours along a sequence** go from the first to the last one. -/
theorem alongSequence (n : Nat) :
    AlongSequence start finish opacity n
      (fun i => start.toward finish opacity (sequencePlace n i)) where
  first := by
    rw [sequencePlace_zero]
    exact start.toward_zero finish opacity
  last hn := by
    rw [sequencePlace_last hn]
    exact start.toward_one finish opacity
  rising k _ _ hk hij := start.toward_mono finish opacity k hk (sequencePlace_mono n hij)
  falling k _ _ hk hij := start.toward_anti finish opacity k hk (sequencePlace_mono n hij)

/-- **Colours by distance** go from that of the nearest point almost to the other one. -/
theorem byDistance {distances : List ℝ} {near far : ℝ} (hmargin : 0 < margin)
    (hnear : IsLeast {d | d ∈ distances} near) (hfar : IsGreatest {d | d ∈ distances} far) :
    ByDistance margin start finish opacity distances (distancePlace margin near far)
      (fun d => start.toward finish opacity (distancePlace margin near far d)) := by
  have hle : near ≤ far := hnear.2 hfar.1
  exact {
    place_nonneg := fun d hd => distancePlace_nonneg hmargin (hnear.2 hd) hle
    place_lt_one := fun d hd => distancePlace_lt_one hmargin hle (hfar.2 hd)
    nearest := fun h => by
      obtain rfl := h.unique hnear
      rw [distancePlace, sub_self, zero_div]
      exact start.toward_zero finish opacity
    farther := fun k d d' hd hd' hdd' => by
      have hplace := distancePlace_mono hmargin hle hdd'
      rw [start.gap_start finish opacity k (distancePlace_nonneg hmargin (hnear.2 hd) hle),
        start.gap_start finish opacity k (distancePlace_nonneg hmargin (hnear.2 hd') hle)]
      exact mul_le_mul_of_nonneg_left hplace (abs_nonneg _)
    farthest := fun k near' far' h h' => by
      obtain rfl := h.unique hnear
      obtain rfl := h'.unique hfar
      rw [start.gap_end finish opacity k (distancePlace_lt_one hmargin hle le_rfl).le,
        one_sub_distancePlace hmargin hle, mul_div_assoc] }

theorem exists_alongSequence (distances : List ℝ) : ∃ color : Nat → Tint ℝ,
    (exact margin).colors (.linear start.extended finish.extended) (distances.map Real.toEReal)
        opacity = (List.range distances.length).map (fun i => (color i).extended) ∧
      AlongSequence start finish opacity distances.length color := by
  refine ⟨_, ?_, alongSequence start finish opacity distances.length⟩
  rw [colors, List.length_map, linearPlaces_exact, shaded_exact, List.map_map]
  rfl

theorem exists_byDistance (hmargin : 0 < margin) (distances : List ℝ) :
    ∃ (place : ℝ → ℝ) (color : ℝ → Tint ℝ),
      (exact margin).radialPlaces (distances.map Real.toEReal) =
        distances.map (fun d => (place d : EReal)) ∧
      (exact margin).colors (.radial start.extended finish.extended) (distances.map Real.toEReal)
          opacity = distances.map (fun d => (color d).extended) ∧
        ByDistance margin start finish opacity distances place color := by
  by_cases hne : distances = []
  · -- without points there is nothing to say
    subst hne
    exact ⟨id, fun _ => start, rfl, rfl, by constructor <;> simp [IsLeast, IsGreatest]⟩
  · obtain ⟨near, far, hnear, hfar, hplaces⟩ := radialPlaces_exact margin hne
    refine ⟨_, _, ?_, ?_, byDistance start finish opacity hmargin hnear hfar⟩
    · rw [hplaces, List.map_map]
      rfl
    · rw [colors, hplaces, shaded_exact, List.map_map]
      rfl

end Laws

/-- **Where the colours of a gradient lie**, for any positive margin. -/
theorem gradient_law (margin : ℝ) (hmargin : 0 < margin) : GradientLaw margin where
  running := colors_doubles
  one_each A := A.colors_length
  opacity A _ _ _ _ := A.opacity_of_mem
  linear := exists_alongSequence
  radial start finish opacity := exists_byDistance start finish opacity hmargin

/-- The margin of the program is one. -/
theorem gradient_law_radialMargin :
    (0 : ℝ) < (Binary64.value ColorScheme.radialMargin : ℚ) ∧
      GradientLaw (Binary64.value ColorScheme.radialMargin : ℚ) := by
  have hmargin : (0 : ℝ) < (Binary64.value ColorScheme.radialMargin : ℚ) := by
    exact_mod_cast value_radialMargin.2.1
  exact ⟨hmargin, gradient_law _ hmargin⟩

end CurveArt
