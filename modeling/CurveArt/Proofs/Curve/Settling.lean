import CurveArt.Curve.Breaks
import Mathlib

/-!
# Settling in place

Points that stay are moved to the front of their list, over others that have been looked at already,
and their step numbers are moved alike. What is still to be looked at is never written over, since a
place is taken only after it has been looked at. So the first places hold the finite points among
those seen, and in the end they are the list without the others.

Main results:

* `Holds.skip`, `Holds.move`: what one place keeps.
* `foldlM_visit?`: what a whole walk leaves.
* `settleInPlace?_map`: settling does not depend on where the step numbers stand.
* `settles_in_place`: settling two lists of one length, and settling them again.
-/

namespace CurveArt.Curve

/-! ## One place -/

section Places

variable {α : Type} {kept place : Nat} {front unread : List α} {x : α} {a : Array α}

/-- The first places of an array hold what has been moved there, and those from `place` on are still
as they were. -/
structure Holds (kept place : Nat) (front unread : List α) (a : Array α) : Prop where
  taken : a.toList.take kept = front
  unread : a.toList.drop place = unread

theorem Holds.getElem?_place (h : Holds kept place front (x :: unread) a) : a[place]? = some x := by
  have hhead := congrArg List.head? h.unread
  rwa [List.head?_drop, Array.getElem?_toList] at hhead

theorem Holds.drop_succ (h : Holds kept place front (x :: unread) a) :
    a.toList.drop (place + 1) = unread := by
  rw [← List.drop_drop, h.unread]
  rfl

/-- A place that is passed over. -/
theorem Holds.skip (h : Holds kept place front (x :: unread) a) :
    Holds kept (place + 1) front unread a :=
  ⟨h.taken, h.drop_succ⟩

/-- A place whose content is moved. It is not before the first one that is free, so nothing that is
still to be looked at is lost. -/
theorem Holds.move (h : Holds kept place front (x :: unread) a) (hkept : kept ≤ place) :
    Holds (kept + 1) (place + 1) (front ++ [x]) unread (a.setIfInBounds kept x) := by
  have hplace : place < a.size := (Array.getElem?_eq_some_iff.1 h.getElem?_place).1
  constructor
  · have hfree : kept < (a.toList.set kept x).length := by
      rw [List.length_set, Array.length_toList]
      omega
    rw [Array.toList_setIfInBounds, List.take_succ_eq_append_getElem hfree,
      List.getElem_set_self, List.take_set_of_le le_rfl, h.taken]
  · rw [Array.toList_setIfInBounds, List.drop_set_of_lt (by omega), h.drop_succ]

end Places

/-! ## The whole walk -/

/-- The points of a list that are finite. -/
def finiteOnes (points : List Stepped) : List Stepped :=
  points.filter fun p => p.point.isFinite

/-- Both arrays hold the first places taken and the same points unread. -/
structure Walks (place : Nat) (front unread : List Stepped) (c : Compaction) : Prop where
  kept_le : c.kept ≤ place
  steps : Holds c.kept place (front.map Stepped.step) (unread.map Stepped.step) c.steps
  points : Holds c.kept place (front.map Stepped.point) (unread.map Stepped.point) c.points

/-- **One place.** A finite point is moved behind those that have been moved before, and any other
is passed over. -/
theorem Walks.visit? {place : Nat} {front unread : List Stepped} {p : Stepped} {c : Compaction}
    (h : Walks place front (p :: unread) c) :
    ∃ c', c.visit? place = some c' ∧ Walks (place + 1) (front ++ finiteOnes [p]) unread c' := by
  rw [Compaction.visit?, h.points.getElem?_place]
  by_cases hfinite : p.point.isFinite
  · simp only [hfinite, if_true, h.steps.getElem?_place]
    refine ⟨_, rfl, Nat.succ_le_succ h.kept_le, ?_, ?_⟩
    · have hmoved := h.steps.move h.kept_le
      simpa [finiteOnes, hfinite] using hmoved
    · have hmoved := h.points.move h.kept_le
      simpa [finiteOnes, hfinite] using hmoved
  · simp only [hfinite, Bool.false_eq_true, if_false]
    refine ⟨c, rfl, Nat.le_succ_of_le h.kept_le, ?_, ?_⟩
    · simpa [finiteOnes, hfinite] using h.steps.skip
    · simpa [finiteOnes, hfinite] using h.points.skip

/-- **A walk** to the end never stops, and moves exactly the finite points to the front. -/
theorem Walks.foldlM_visit? {place : Nat} {front unread : List Stepped} {c : Compaction}
    (h : Walks place front unread c) :
    ∃ c', (List.range' place unread.length).foldlM Compaction.visit? c = some c' ∧
      Walks (place + unread.length) (front ++ finiteOnes unread) [] c' := by
  induction unread generalizing place front c with
  | nil => exact ⟨c, rfl, by simpa [finiteOnes] using h⟩
  | cons p unread ih =>
    obtain ⟨c', hvisit, hwalks⟩ := h.visit?
    obtain ⟨c'', hrest, hwalks'⟩ := ih hwalks
    refine ⟨c'', ?_, ?_⟩
    · rw [List.length_cons, List.range'_succ, List.foldlM_cons, hvisit]
      exact hrest
    · rw [List.length_cons, Nat.add_comm unread.length, ← Nat.add_assoc]
      rwa [finiteOnes, ← List.singleton_append, List.filter_append, ← List.append_assoc]

theorem compacted?_map (points : List Stepped) :
    compacted? (points.map Stepped.step) (points.map Stepped.point) =
      some ((finiteOnes points).map Stepped.step, (finiteOnes points).map Stepped.point) := by
  have hstart : Walks 0 [] points
      ⟨(points.map Stepped.step).toArray, (points.map Stepped.point).toArray, 0⟩ :=
    ⟨le_rfl, ⟨rfl, rfl⟩, ⟨rfl, rfl⟩⟩
  obtain ⟨c, hwalk, -, hsteps, hpoints⟩ := hstart.foldlM_visit?
  rw [compacted?, List.length_map, List.range_eq_range', hwalk, Option.map_some, hsteps.taken,
    hpoints.taken, List.nil_append]

/-! ## Settling -/

variable {policy : FailurePolicy} {points : List Stepped}

theorem countP_point (points : List Stepped) :
    (points.map Stepped.point).countP (fun p => !p.isFinite) = nonFiniteCount points := by
  rw [List.countP_map]
  rfl

theorem settled_of_isFinite (h : ∀ p ∈ points, p.point.isFinite = true) :
    settled policy points = points := by
  cases policy with
  | drop => exact List.filter_eq_self.2 h
  | zero =>
    refine (List.map_congr_left fun p hp => ?_).trans (List.map_id points)
    simp [Point.finiteOrZero_of_isFinite (h p hp)]

theorem nonFiniteCount_eq_zero_iff :
    nonFiniteCount points = 0 ↔ ∀ p ∈ points, p.point.isFinite = true := by
  simp [nonFiniteCount, List.countP_eq_zero]

/-- Whatever the policy, the points that settling leaves are finite. -/
theorem settled_isFinite {p : Stepped} (h : p ∈ settled policy points) :
    p.point.isFinite = true := by
  cases policy with
  | drop => exact (List.mem_filter.1 h).2
  | zero =>
    obtain ⟨q, -, rfl⟩ := List.mem_map.1 h
    exact Point.finiteOrZero_isFinite q.point

/-- Where every point has its step number, it does not matter how the two are kept. -/
theorem settleInPlace?_map (policy : FailurePolicy) (points : List Stepped) :
    settleInPlace? policy (points.map Stepped.step) (points.map Stepped.point) =
      some ⟨⟨(settled policy points).map Stepped.step, (settled policy points).map Stepped.point,
        nonFiniteCount points⟩, (settle policy points).events⟩ := by
  unfold settleInPlace?
  rw [settle, countP_point]
  by_cases hnone : nonFiniteCount points = 0
  · rw [settled_of_isFinite (nonFiniteCount_eq_zero_iff.1 hnone), if_pos hnone, if_pos hnone, hnone]
  · simp only [if_neg hnone]
    cases policy with
    | drop =>
      simp only [compacted?_map]
      rfl
    | zero =>
      simp only [Option.map_some, settled, List.map_map]
      rfl

theorem settleApart?_map (policy : FailurePolicy) (points : List Stepped) :
    settleApart? policy (points.map Stepped.step) (points.map Stepped.point) =
      some ⟨((settle policy points).value.map Stepped.step,
        (settle policy points).value.map Stepped.point), (settle policy points).events⟩ := by
  rw [settleApart?, settleInPlace?_map]
  rfl

/-- Two lists of one length are the halves of a list of points that carry their numbers. -/
theorem exists_stepped {steps : List Nat} {points : List Point}
    (h : steps.length = points.length) : ∃ moved : List Stepped,
      moved.map Stepped.step = steps ∧ moved.map Stepped.point = points := by
  refine ⟨(steps.zip points).map fun q => ⟨q.1, q.2⟩, ?_, ?_⟩
  · rw [List.map_map]
    exact List.map_fst_zip h.le
  · rw [List.map_map]
    exact List.map_snd_zip h.ge

/-! ## What settling two lists does -/

/-- The coordinate that is settled: a finite one stays, and any other becomes zero. -/
def Zeroed (x y : Float) : Prop :=
  if x.isFinite then y = x else y = 0.0

/-- What two lists of one length are settled to. -/
structure Settles (policy : FailurePolicy) (steps : List Nat) (points : List Point)
    (s : Settlement) : Prop where
  finite : ∀ p ∈ s.points, p.x.isFinite = true ∧ p.y.isFinite = true
  together : s.steps.length = s.points.length
  affected : s.affected = points.countP fun p => !(p.x.isFinite && p.y.isFinite)
  dropped : policy = .drop →
    s.steps.zip s.points =
        (steps.zip points).filter (fun q => q.2.x.isFinite && q.2.y.isFinite) ∧
      s.points.length + s.affected = points.length ∧
      (steps.Pairwise (· < ·) → s.steps.Pairwise (· < ·))
  zeroed : policy = .zero →
    s.steps = steps ∧ List.Forall₂ (fun p q => Zeroed p.x q.x ∧ Zeroed p.y q.y) points s.points
  again : ∀ policy', settleInPlace? policy' s.steps s.points = some ⟨⟨s.steps, s.points, 0⟩, []⟩

theorem zip_step_point (points : List Stepped) :
    (points.map Stepped.step).zip (points.map Stepped.point) =
      points.map fun p => (p.step, p.point) :=
  List.zip_map'

theorem zeroed_coordinateOrZero (x : Float) : Zeroed x (Point.coordinateOrZero x) := by
  unfold Zeroed Point.coordinateOrZero
  split <;> rfl

theorem filter_length_add_nonFiniteCount (points : List Stepped) :
    (finiteOnes points).length + nonFiniteCount points = points.length := by
  have hsplit :=
    List.length_eq_countP_add_countP (fun p : Stepped => p.point.isFinite) (l := points)
  rw [finiteOnes, nonFiniteCount, ← List.countP_eq_length_filter, hsplit]
  simp

theorem settled_drop : settled .drop points = finiteOnes points := rfl

theorem settled_settles (policy : FailurePolicy) (points : List Stepped) :
    Settles policy (points.map Stepped.step) (points.map Stepped.point)
      ⟨(settled policy points).map Stepped.step, (settled policy points).map Stepped.point,
        nonFiniteCount points⟩ where
  finite := by
    intro p hp
    obtain ⟨q, hq, rfl⟩ := List.mem_map.1 hp
    exact Bool.and_eq_true_iff.1 (settled_isFinite hq)
  together := by rw [List.length_map, List.length_map]
  affected := (countP_point points).symm
  dropped := by
    rintro rfl
    refine ⟨?_, ?_, fun hincreasing => ?_⟩
    · rw [zip_step_point, zip_step_point, List.filter_map]
      rfl
    · rw [List.length_map, List.length_map, settled_drop, filter_length_add_nonFiniteCount]
    · exact hincreasing.sublist (List.filter_sublist.map _)
  zeroed := by
    rintro rfl
    refine ⟨List.map_map, ?_⟩
    rw [settled, List.forall₂_map_left_iff, List.forall₂_map_right_iff,
      List.forall₂_map_right_iff, List.forall₂_same]
    exact fun p _ => ⟨zeroed_coordinateOrZero p.point.x, zeroed_coordinateOrZero p.point.y⟩
  again := by
    intro policy'
    have hfinite : ∀ p ∈ settled policy points, p.point.isFinite = true :=
      fun p hp => settled_isFinite hp
    have hnone := nonFiniteCount_eq_zero_iff.2 hfinite
    rw [settleInPlace?_map, settled_of_isFinite hfinite, hnone, settle, hnone]
    rfl

/-- **Settling two lists of one length** in place leaves finite points with their step numbers,
under either policy, and tells how many were not finite. Dropping keeps the pairs whose point is
finite, in their order; the other policy replaces coordinates only. Nothing is left for a second
time. -/
theorem settles_in_place (policy : FailurePolicy) {steps : List Nat} {points : List Point}
    (h : steps.length = points.length) :
    ∃ s, settleInPlace? policy steps points = some s ∧ Settles policy steps points s.value := by
  obtain ⟨moved, rfl, rfl⟩ := exists_stepped h
  exact ⟨_, settleInPlace?_map policy moved, settled_settles policy moved⟩

/-- Three points, two of which are not finite. -/
def lostPoints : List Point :=
  [⟨1.0 / 0.0, 0.0⟩, ⟨1.0, 2.0⟩, ⟨3.0, 0.0 / 0.0⟩]

theorem settles_in_place_lost :
    [2, 5, 6].length = lostPoints.length ∧
      (∃ s, settleInPlace? .drop [2, 5, 6] lostPoints = some s ∧
        Settles .drop [2, 5, 6] lostPoints s.value) ∧
      (settleInPlace? .drop [2, 5, 6] lostPoints).map
        (fun s => (s.value.steps, s.value.affected)) = some ([5], 2) :=
  ⟨rfl, settles_in_place .drop rfl, by decide +kernel⟩

end CurveArt.Curve
