import CurveArt.Drawing.Svg

/-!
# Looking positions up in an ascending array

The search halves the places that are left until there is one. On an ascending array it never leaves
the half that has the number, if any place has it at all, so the one comparison at the end decides.

Main results:

* `narrow_getElem`: the search for a number of the array ends at its place.
* `holds_iff`: on an ascending array, exactly the numbers of the array are found.
-/

namespace CurveArt

/-- The search stays within the places that are left. -/
theorem narrow_lt {a : Array Nat} {x base size : Nat} (hsize : 0 < size) :
    narrow a x base size < base + size := by
  fun_induction narrow a x base size with
  | case1 base size hlarge half middle ih =>
    have hhalf : half = size / 2 := rfl
    have hmiddle : middle = base + half := rfl
    have hleft := ih (by omega)
    split at hleft <;> split <;> omega
  | case2 base size hsmall => omega

/-- The number at a place of an ascending array is found there. -/
theorem narrow_getElem {a : Array Nat} (hascending : a.toList.Pairwise (· < ·)) {k base size : Nat}
    (hk : k < a.size) (hlo : base ≤ k) (hhi : k < base + size) (hsize : base + size ≤ a.size) :
    narrow a a[k] base size = k := by
  have hlt : ∀ i j (hi : i < a.size) (hj : j < a.size), i < j → a[i] < a[j] := by
    intro i j hi hj hij
    have hpair := List.pairwise_iff_getElem.1 hascending i j (by simpa using hi) (by simpa using hj)
    simpa using hpair hij
  fun_induction narrow a a[k] base size with
  | case1 base size hlarge half middle ih =>
    have hhalf : half = size / 2 := rfl
    have hmiddle : middle = base + half := rfl
    have hinside : middle < a.size := by omega
    have hget : a.getD middle 0 = a[middle] := by simp [Array.getD, hinside]
    -- the number lies below the middle exactly if its place does
    have hside : a[k] < a.getD middle 0 ↔ k < middle := by
      rw [hget]
      constructor
      · intro hless
        refine Nat.lt_of_not_le fun hge => ?_
        rcases Nat.lt_or_eq_of_le hge with hgt | heq
        · exact Nat.lt_asymm hless (hlt middle k hinside hk hgt)
        · subst heq
          exact Nat.lt_irrefl _ hless
      · exact hlt k middle hk hinside
    by_cases hbelow : k < middle
    · rw [dif_pos (hside.2 hbelow)] at ih
      rw [if_pos (hside.2 hbelow)]
      exact ih hlo (by omega) (by omega)
    · rw [dif_neg (mt hside.1 hbelow)] at ih
      rw [if_neg (mt hside.1 hbelow)]
      exact ih (by omega) (by omega) (by omega)
  | case2 base size hsmall => omega

/-- In an ascending array exactly the numbers that it has are found. -/
theorem holds_iff {a : Array Nat} (hascending : a.toList.Pairwise (· < ·)) {x : Nat} :
    holds a x = true ↔ x ∈ a := by
  rw [holds]
  split
  · next hempty =>
    obtain rfl := Array.isEmpty_iff.1 hempty
    simp
  · next hne =>
    -- the search ends at some place of the array, where the one comparison is made
    have hpos : 0 < a.size := by
      rw [Array.isEmpty_iff, ← Array.size_eq_zero_iff] at hne
      omega
    have hplace : narrow a x 0 a.size < a.size := by
      have h : narrow a x 0 a.size < 0 + a.size := narrow_lt hpos
      omega
    rw [beq_iff_eq, Array.getD, dif_pos hplace]
    constructor
    · intro h
      rw [← h]
      exact Array.getElem_mem hplace
    · intro hmem
      obtain ⟨k, hk, rfl⟩ := Array.mem_iff_getElem.1 hmem
      have hend : narrow a a[k] 0 a.size = k :=
        narrow_getElem hascending hk (Nat.zero_le k) (by omega) (by omega)
      simp [hend]

end CurveArt
