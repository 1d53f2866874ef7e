import CurveArt.Proofs.Binary64.Halving
import CurveArt.Proofs.Curve.Images

/-!
# The range that noise is drawn from

Noise of a positive width is drawn from the range between minus and plus half of it. A draw refuses
a range that has no double in it or whose width is not finite, and of the ranges of all finite
widths only one is refused: half of the least positive double is zero, so its range is empty. All
other failures of a draw are series of rejected candidates.

Main results:

* `between_error_iff`: which ranges are refused.
* `range_of_width`: the range of a width that is not the least one.
* `noise_emptyRange_iff`: which noise is refused.
-/

namespace CurveArt

open Binary64

namespace Random.Stream

theorem betweenWithin_ne_emptyRange (low width high : Float) (tries : Nat) (s : Stream) :
    (betweenWithin low width high tries s).1 ≠ .error .emptyRange := by
  induction tries generalizing s with
  | zero =>
    intro heq
    cases heq
  | succ tries ih =>
    rw [betweenWithin]
    dsimp only
    split
    · intro heq
      cases heq
    · exact ih _

/-- A range is refused for having no double or no finite width, whatever the stream is. -/
theorem between_error_iff (low high : Float) (s : Stream) :
    (s.between low high).1 = .error .emptyRange ↔
      ¬(low < high ∧ (high - low).isFinite = true) := by
  by_cases h : low < high ∧ (high - low).isFinite = true
  · have hdraw : s.between low high =
        betweenWithin low (high - low) high maxRejections s := if_pos h
    rw [hdraw]
    exact iff_of_false (betweenWithin_ne_emptyRange _ _ _ _ s) (not_not_intro h)
  · have hdraw : s.between low high = (.error .emptyRange, s) := if_neg h
    rw [hdraw]
    exact iff_of_true rfl h

end Random.Stream

namespace Transform

/-- The width whose half is rounded to zero. -/
def leastWidth : Float :=
  Float.ofBits 1

theorem unpacked_leastWidth : unpacked leastWidth = .finite .positive 1 (-1074) (by decide) := rfl

/-- The mantissa and the exponent of any other width. -/
theorem parts_of_ne_leastWidth {width : Float} {m : Nat} {q : Int} {h : 0 < m}
    (hwidth : unpacked width = .finite .positive m q h) (hne : width ≠ leastWidth) :
    m ≠ 1 ∨ q ≠ -1074 := by
  by_contra hleast
  simp only [not_or, not_not] at hleast
  obtain ⟨rfl, rfl⟩ := hleast
  exact hne (unpacked_injective (hwidth.trans unpacked_leastWidth.symm))

/-- The range of any other positive width has doubles in it, and is no wider than doubles are. -/
theorem range_of_width {width : Float} (hfinite : width.isFinite = true) (hpos : ¬width ≤ 0.0)
    (hne : width ≠ leastWidth) :
    -(width / 2.0) < width / 2.0 ∧ (width / 2.0 - -(width / 2.0)).isFinite = true := by
  obtain ⟨m, q, h, hwidth⟩ := unpacked_of_pos hfinite hpos
  -- half of every other width is positive
  obtain ⟨m', q', h', hhalf, -, hle⟩ := unpacked_half hwidth (parts_of_ne_leastWidth hwidth hne)
  exact ⟨neg_lt_self hhalf, width_isFinite hhalf hle⟩

theorem leastWidth_range :
    ¬(-(leastWidth / 2.0) < leastWidth / 2.0 ∧
      (leastWidth / 2.0 - -(leastWidth / 2.0)).isFinite = true) := by
  decide +kernel

/-- Displacements from a range that has doubles are never refused for it. -/
theorem noiseWithin_ne_emptyRange {half : Float}
    (hrange : -half < half ∧ (half - -half).isFinite = true) (n : Nat) (s : Random.Stream) :
    noiseWithin half n s ≠ .error .emptyRange := by
  have hdraw : ∀ s : Random.Stream, (s.between (-half) half).1 ≠ .error .emptyRange :=
    fun s herror => (Random.Stream.between_error_iff (-half) half s).1 herror hrange
  induction n generalizing s with
  | zero =>
    intro heq
    cases heq
  | succ n ih =>
    rw [noiseWithin]
    -- the error of a draw is another one
    split
    · next e s' hfirst =>
      intro heq
      exact hdraw s (by rw [hfirst]; exact congrArg _ (Except.error.inj heq))
    · next dx s' hfirst =>
      split
      · next e s'' hsecond =>
        intro heq
        exact hdraw s' (by rw [hsecond]; exact congrArg _ (Except.error.inj heq))
      · next dy s'' hsecond =>
        split
        · next e hrest =>
          intro heq
          exact ih s'' (by rw [hrest]; exact congrArg _ (Except.error.inj heq))
        · intro heq
          cases heq

/-- The first displacement from a refused range is refused. -/
theorem noiseWithin_succ_emptyRange {half : Float}
    (hrange : ¬(-half < half ∧ (half - -half).isFinite = true)) (n : Nat) (s : Random.Stream) :
    noiseWithin half (n + 1) s = .error .emptyRange := by
  have herror := (Random.Stream.between_error_iff (-half) half s).2 hrange
  rw [noiseWithin]
  split
  · next e s' hfirst =>
    rw [hfirst] at herror
    exact congrArg _ (Except.error.inj herror)
  · next dx s' hfirst =>
    rw [hfirst] at herror
    cases herror

/-- Noise of a finite width is refused exactly if it is of the least width and there is a point that
needs it. -/
theorem noise_emptyRange_iff {width : Float} (hfinite : width.isFinite = true) (n : Nat)
    (s : Random.Stream) :
    noise width n s = .error .emptyRange ↔ width = leastWidth ∧ n ≠ 0 := by
  rw [noise]
  split
  · next hzero =>
    have hpos : ¬leastWidth ≤ 0.0 := by decide +kernel
    simp only [reduceCtorEq, false_iff, not_and]
    rintro rfl
    exact absurd hzero hpos
  · next hpos =>
    constructor
    · intro hrefused
      refine ⟨?_, ?_⟩
      · by_contra hne
        exact noiseWithin_ne_emptyRange (range_of_width hfinite hpos hne) n s hrefused
      · rintro rfl
        cases hrefused
    · rintro ⟨rfl, hn⟩
      obtain ⟨n, rfl⟩ := Nat.exists_eq_succ_of_ne_zero hn
      exact noiseWithin_succ_emptyRange leastWidth_range n s

end Transform

end CurveArt
