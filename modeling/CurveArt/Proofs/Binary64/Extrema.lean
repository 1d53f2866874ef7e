import CurveArt.Binary64.Extrema
import CurveArt.Proofs.Binary64.Values

/-!
# The least and the greatest of a list

The search for the least of a list of doubles and that for the greatest differ only in the order, so
there is one induction for both. Infinities take part in either; doubles that are not numbers do
not, and the lists here have none.

Main results:

* `Chooses.foldl`: a search gives one of the doubles that it has seen, and none of them comes before
  it.
* `chooses_least`, `chooses_greatest`: the two searches.
-/

namespace CurveArt.Binary64

variable {x y : Float} {xs : List Float}
  {r : WithBot (WithTop ℚ) → WithBot (WithTop ℚ) → Prop} {f : Float → Float → Float}

/-- Of two numbers, one that comes before both by the given order of their places. -/
def Chooses (r : WithBot (WithTop ℚ) → WithBot (WithTop ℚ) → Prop) (f : Float → Float → Float) :
    Prop :=
  ∀ x y : Float, x.isNaN = false → y.isNaN = false →
    (f x y = x ∨ f x y = y) ∧ r (extended (f x y)) (extended x) ∧
      r (extended (f x y)) (extended y)

/-- **A search** gives one of the doubles that it has seen, and none of them comes before it. -/
theorem Chooses.foldl [Std.Refl r] [IsTrans _ r] (hf : Chooses r f) (start : Float)
    (hstart : start.isNaN = false) (hxs : ∀ x ∈ xs, x.isNaN = false) :
    xs.foldl f start ∈ start :: xs ∧
      ∀ x ∈ start :: xs, r (extended (xs.foldl f start)) (extended x) := by
  induction xs generalizing start with
  | nil =>
    refine ⟨List.mem_singleton_self start, fun x hx => ?_⟩
    obtain rfl := List.mem_singleton.1 hx
    exact Std.Refl.refl _
  | cons y ys ih =>
    have hy := hxs y List.mem_cons_self
    obtain ⟨hone, hfirst, hsecond⟩ := hf start y hstart hy
    have hnext : (f start y).isNaN = false := by
      rcases hone with h | h <;> rw [h]
      · exact hstart
      · exact hy
    obtain ⟨hmem, hbefore⟩ := ih (f start y) hnext fun x hx => hxs x (List.mem_cons_of_mem y hx)
    rw [List.foldl_cons]
    generalize ys.foldl f (f start y) = found at *
    -- what has been chosen stands for the two that it was chosen from
    have hchosen := hbefore _ List.mem_cons_self
    refine ⟨?_, fun x hx => ?_⟩
    · rcases List.mem_cons.1 hmem with rfl | hmem
      · rcases hone with h | h <;> rw [h] <;> simp
      · exact List.mem_cons_of_mem _ (List.mem_cons_of_mem _ hmem)
    · rcases List.mem_cons.1 hx with rfl | hx
      · exact IsTrans.trans _ _ _ hchosen hfirst
      · rcases List.mem_cons.1 hx with rfl | hx
        · exact IsTrans.trans _ _ _ hchosen hsecond
        · exact hbefore x (List.mem_cons_of_mem _ hx)

theorem chooses_least : Chooses (· ≤ ·) least := by
  intro x y hx hy
  have hleast : least x y = if y < x then y else x := by
    unfold least
    rw [hx, hy]
    rfl
  rw [hleast]
  split
  · next h =>
    rw [lt_iff_extended hy hx] at h
    exact ⟨.inr rfl, h.le, le_rfl⟩
  · next h =>
    rw [lt_iff_extended hy hx, not_lt] at h
    exact ⟨.inl rfl, le_rfl, h⟩

theorem chooses_greatest : Chooses (· ≥ ·) greatest := by
  intro x y hx hy
  have hgreatest : greatest x y = if x < y then y else x := by
    unfold greatest
    rw [hx, hy]
    rfl
  rw [hgreatest]
  split
  · next h =>
    rw [lt_iff_extended hx hy] at h
    exact ⟨.inr rfl, h.le, le_rfl⟩
  · next h =>
    rw [lt_iff_extended hx hy, not_lt] at h
    exact ⟨.inl rfl, le_rfl, h⟩

end CurveArt.Binary64
