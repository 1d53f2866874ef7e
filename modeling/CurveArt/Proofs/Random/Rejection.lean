import CurveArt.Random.Draw
import Mathlib.Order.Lattice.Nat

/-!
# Draws that reject candidates

A draw from a range tries one candidate after another and takes the first that lies inside. What it
takes, and where it leaves the stream, is settled by the stream alone: `drawn` and `behind` are those
of a draw that is never given up. A draw with a bound either comes to the same or runs into its
bound, so a bound decides only whether there is a result.

How many words a draw takes is not the same for every place of the stream. `afterDraws` is
therefore by recursion: the next draw begins where the one before it has ended.

Main results:

* `betweenTrying_of_endsWithin`, `betweenTrying_of_rejected`: the two outcomes of a bounded draw.
* `afterDraws_of_prompt`: where no candidate is rejected, every draw takes two words.
-/

namespace CurveArt.Random.Stream

variable {low high : Float} {s : Stream} {tries : Nat}

theorem skip_skip (s : Stream) (m n : Nat) : (s.skip m).skip n = s.skip (m + n) := by
  rw [skip, skip, skip, Nat.add_assoc]

/-! ## One draw -/

/-- The candidate that is tried after `i` others. -/
def candidateAt (low high : Float) (s : Stream) (i : Nat) : Float :=
  candidate low (high - low) (s.skip (2 * i)).longWord.1

/-- One of the first candidates is taken. -/
def EndsWithin (tries : Nat) (low high : Float) (s : Stream) : Prop :=
  ∃ i < tries, s.candidateAt low high i < high

/-- A draw that is never given up comes to an end. -/
def Ends (low high : Float) (s : Stream) : Prop :=
  ∃ i, s.candidateAt low high i < high

/-- How many candidates are rejected before one is taken. -/
noncomputable def rejections (low high : Float) (s : Stream) : Nat :=
  sInf {i | s.candidateAt low high i < high}

/-- The candidate that is taken. -/
noncomputable def drawn (low high : Float) (s : Stream) : Float :=
  s.candidateAt low high (s.rejections low high)

/-- The stream behind the candidate that is taken. -/
noncomputable def behind (low high : Float) (s : Stream) : Stream :=
  s.skip (2 * (s.rejections low high + 1))

theorem Ends.drawn_lt (h : s.Ends low high) : s.drawn low high < high :=
  Nat.sInf_mem h

theorem Ends.endsWithin (h : s.Ends low high) (htries : s.rejections low high < tries) :
    s.EndsWithin tries low high :=
  ⟨s.rejections low high, htries, h.drawn_lt⟩

theorem EndsWithin.ends (h : s.EndsWithin tries low high) : s.Ends low high :=
  let ⟨i, _, hi⟩ := h
  ⟨i, hi⟩

theorem EndsWithin.rejections_lt (h : s.EndsWithin tries low high) :
    s.rejections low high < tries :=
  let ⟨_, htries, hi⟩ := h
  (Nat.sInf_le hi).trans_lt htries

/-- The draw from a range that tries a given number of candidates. -/
def betweenTrying (tries : Nat) (low high : Float) (s : Stream) :
    Except DrawError Float × Stream :=
  if low < high ∧ (high - low).isFinite then betweenWithin low (high - low) high tries s
  else (.error .emptyRange, s)

theorem between_eq_betweenTrying (low high : Float) (s : Stream) :
    s.between low high = s.betweenTrying maxRejections low high :=
  rfl

/-- Candidates that are rejected are passed over. -/
theorem betweenWithin_of_rejected {i : Nat} (h : ∀ j < i, ¬s.candidateAt low high j < high)
    (tries : Nat) : betweenWithin low (high - low) high (i + tries) s =
      betweenWithin low (high - low) high tries (s.skip (2 * i)) := by
  induction i generalizing tries with
  | zero =>
    rw [Nat.zero_add]
    rfl
  | succ i ih =>
    -- all but the last are passed over by the hypothesis, and then the last one stands in front
    have hrejected : ¬candidate low (high - low) (s.skip (2 * i)).longWord.1 < high :=
      h i (Nat.lt_succ_self i)
    have hnext : (s.skip (2 * i)).longWord.2 = s.skip (2 * (i + 1)) := skip_skip s (2 * i) 2
    rw [Nat.succ_add_eq_add_succ, ih (fun j hj => h j (Nat.lt_succ_of_lt hj)), betweenWithin]
    dsimp only
    rw [if_neg hrejected, hnext]

section Bounded

variable (hrange : low < high ∧ (high - low).isFinite = true)
include hrange

/-- A bound that is large enough changes nothing. -/
theorem betweenTrying_of_endsWithin (h : s.EndsWithin tries low high) :
    s.betweenTrying tries low high = (.ok (s.drawn low high), s.behind low high) := by
  have htaken : candidate low (high - low) (s.skip (2 * s.rejections low high)).longWord.1 < high :=
    h.ends.drawn_lt
  have hrejected : ∀ j < s.rejections low high, ¬s.candidateAt low high j < high :=
    fun j hj => Nat.notMem_of_lt_sInf hj
  have hbehind : (s.skip (2 * s.rejections low high)).longWord.2 = s.behind low high :=
    skip_skip s _ 2
  -- the candidate that is taken is the first one behind those that are rejected
  obtain ⟨rest, rfl⟩ := Nat.exists_eq_add_of_lt h.rejections_lt
  rw [betweenTrying, if_pos hrange, Nat.add_assoc, betweenWithin_of_rejected hrejected,
    betweenWithin]
  dsimp only
  rw [if_pos htaken, hbehind]
  rfl

/-- Any other bound is run into. -/
theorem betweenTrying_of_rejected (h : ¬s.EndsWithin tries low high) :
    s.betweenTrying tries low high = (.error .exhausted, s.skip (2 * tries)) := by
  have hrejected : ∀ j < tries, ¬s.candidateAt low high j < high :=
    fun j hj htaken => h ⟨j, hj, htaken⟩
  rw [betweenTrying, if_pos hrange]
  exact betweenWithin_of_rejected hrejected 0

end Bounded

/-! ## One draw after another -/

/-- The stream after a number of draws. -/
noncomputable def afterDraws (low high : Float) : Nat → Stream → Stream
  | 0, s => s
  | n + 1, s => afterDraws low high n (s.behind low high)

/-- What is drawn after `k` other draws. -/
noncomputable def drawnAt (low high : Float) (s : Stream) (k : Nat) : Float :=
  (s.afterDraws low high k).drawn low high

/-- Each of the first `n` draws comes to an end. -/
def AllEnd (low high : Float) (n : Nat) (s : Stream) : Prop :=
  ∀ k < n, (s.afterDraws low high k).Ends low high

/-- Each of the first `n` draws comes to an end within a number of candidates. -/
def AllEndWithin (tries : Nat) (low high : Float) (n : Nat) (s : Stream) : Prop :=
  ∀ k < n, (s.afterDraws low high k).EndsWithin tries low high

theorem allEndWithin_succ {n : Nat} : s.AllEndWithin tries low high (n + 1) ↔
    s.EndsWithin tries low high ∧ (s.behind low high).AllEndWithin tries low high n :=
  Nat.forall_lt_succ_left

/-- There is a bound that suits any number of draws that come to an end. -/
theorem AllEnd.exists_bound {n : Nat} (h : s.AllEnd low high n) :
    ∃ bound, ∀ tries ≥ bound, s.AllEndWithin tries low high n := by
  induction n with
  | zero => exact ⟨0, fun _ _ k hk => absurd hk (Nat.not_lt_zero k)⟩
  | succ n ih =>
    obtain ⟨bound, hbound⟩ := ih fun k hk => h k (Nat.lt_succ_of_lt hk)
    refine ⟨max bound ((s.afterDraws low high n).rejections low high + 1), fun tries htries => ?_⟩
    refine Nat.forall_lt_succ_right.2 ⟨hbound tries (by omega), ?_⟩
    exact (h n (Nat.lt_succ_self n)).endsWithin (by omega)

section Prompt

variable (hprompt : ∀ s : Stream, s.EndsWithin 1 low high)
include hprompt

/-- Where no candidate is rejected, every draw takes two words. -/
theorem afterDraws_of_prompt (n : Nat) (s : Stream) :
    s.afterDraws low high n = s.skip (2 * n) := by
  induction n generalizing s with
  | zero => rfl
  | succ n ih =>
    have hnone : s.rejections low high = 0 := Nat.lt_one_iff.1 (hprompt s).rejections_lt
    rw [afterDraws, ih, behind, hnone, skip_skip]
    congr 1
    omega

theorem allEndWithin_of_prompt (htries : 1 ≤ tries) (n : Nat) (s : Stream) :
    s.AllEndWithin tries low high n := fun k _ =>
  let ⟨i, hi, hlt⟩ := hprompt (s.afterDraws low high k)
  ⟨i, hi.trans_le htries, hlt⟩

end Prompt

end CurveArt.Random.Stream
