import CurveArt.Proofs.Binary64.Overflow
import CurveArt.Proofs.Binary64.UnitInterval
import CurveArt.Proofs.Curve.Inputs
import CurveArt.Settings.Basic

/-!
# Evenly spread values

Values between two ends are computed from the width of the range, as parts of it that are added to
the lower end. The parts go up from nothing to the whole width, and rounding keeps their order. But
the width is rounded itself. So the values go up from the lower end to the rounded sum of the lower
end and the rounded width, which need not be the upper end; and where the width is beyond all
doubles, they do not lie between the ends at all.

Main results:

* `fraction_inUnit`, `fraction_mono`: the parts of the range.
* `narrow_rises`: values of a range whose width is a double.
* `wide_values`: values of a range whose width is beyond all doubles.
* `linspace_spaced`: when the values go up from the one end to the other.
* `linspace_pastEnd`: a range with a value beyond its upper end.
-/

namespace CurveArt.Curve

open Binary64
open Float.Model (Format UnpackedFloat)

variable {lo hi width x y t u : Float} {xs : List Float} {n i j last : Nat}

/-! ## Counts -/

/-- A count that is a machine word is rounded to a double. -/
theorem rounds_ofCount (h : n < 2 ^ 64) : Rounds n (ofCount n) := by
  have hword : n.toUInt64.toNat = n := Nat.mod_eq_of_lt h
  have hbound : |((n : Int) : ℚ) * 2 ^ (0 : Int)| < overflowBound := by
    have hn : (n : ℚ) < 2 ^ (64 : Int) := by exact_mod_cast h
    have hsize : (2 : ℚ) ^ (64 : Int) ≤ 2 ^ (1023 : Int) :=
      zpow_le_zpow_right₀ one_le_two (by decide)
    rw [zpow_zero, mul_one, Int.cast_natCast, abs_of_nonneg (Nat.cast_nonneg n)]
    exact (hn.trans_le hsize).trans two_pow_lt_overflowBound
  have hrounds := rounds_normalize (n : Int) 0 hbound .positive
  rw [zpow_zero, mul_one, Int.cast_natCast] at hrounds
  have hfloat : ofCount n =
      packed (UnpackedFloat.normalize Format.binary64 (n.toUInt64.toNat : Int) 0 .positive) :=
    rfl
  rwa [hfloat, hword]

theorem value_ofCount_mono (hj : j < 2 ^ 64) (h : i ≤ j) :
    value (ofCount i) ≤ value (ofCount j) := by
  rcases Nat.lt_or_eq_of_le h with hlt | rfl
  · exact (rounds_ofCount (by omega)).mono (rounds_ofCount hj) (by exact_mod_cast hlt)
  · exact le_rfl

theorem value_ofCount_zero : value (ofCount 0) = 0 := rfl

theorem value_ofCount_nonneg (h : n < 2 ^ 64) : 0 ≤ value (ofCount n) :=
  value_ofCount_mono h (Nat.zero_le n)

theorem one_le_value_ofCount (hpos : 0 < n) (h : n < 2 ^ 64) : 1 ≤ value (ofCount n) := by
  have hone := value_ofCount_mono h hpos
  rwa [(value_ofCount (show 1 < 2 ^ 53 by decide)).2, Nat.cast_one] at hone

/-! ## Parts of the range -/

/-- The part of the range below value `i`, where the values are counted from zero to `last`. -/
def fraction (last i : Nat) : Float :=
  ofCount i / ofCount last

section Fractions

variable (hpos : 0 < last) (h : last < 2 ^ 64)
include hpos h

theorem fraction_inUnit (hi : i ≤ last) : InUnit (fraction last i) := by
  have hone := one_le_value_ofCount hpos h
  have hi' : i < 2 ^ 64 := by omega
  exact quotient_inUnit (rounds_ofCount hi').isFinite (rounds_ofCount h).isFinite
    (value_ofCount_nonneg hi') (value_ofCount_mono h hi) (by linarith)

theorem rounds_fraction (hi : i ≤ last) :
    Rounds (value (ofCount i) / value (ofCount last)) (fraction last i) := by
  have hone := one_le_value_ofCount hpos h
  have hi' : i < 2 ^ 64 := by omega
  have hpart : value (ofCount i) / value (ofCount last) ≤ 1 :=
    (div_le_one (by linarith)).2 (value_ofCount_mono h hi)
  have hnonneg : 0 ≤ value (ofCount i) / value (ofCount last) :=
    div_nonneg (value_ofCount_nonneg hi') (by linarith)
  exact rounds_div (rounds_ofCount hi').isFinite (rounds_ofCount h).isFinite (by linarith)
    (lt_overflowBound_of_le_two hnonneg (by linarith))

theorem value_fraction_zero : value (fraction last 0) = 0 := by
  have hrounds := rounds_fraction hpos h (Nat.zero_le last)
  rw [value_ofCount_zero, zero_div, ← value_zero] at hrounds
  rw [hrounds.eq rfl, value_zero]

theorem value_fraction_last : value (fraction last last) = 1 := by
  have hone := one_le_value_ofCount hpos h
  have hrounds := rounds_fraction hpos h le_rfl
  rw [div_self (by linarith), ← value_one] at hrounds
  rw [hrounds.eq rfl, value_one]

/-- No part but the first is nothing. -/
theorem value_fraction_pos (hi : i ≤ last) (hi' : 0 < i) : 0 < value (fraction last i) := by
  have hone := one_le_value_ofCount hi' (show i < 2 ^ 64 by omega)
  have hlast := one_le_value_ofCount hpos h
  have hsize : value (ofCount last) ≤ 2 ^ (64 : Int) :=
    (rounds_ofCount h).le_power (by decide) (by decide) (by exact_mod_cast h.le)
  have hpart : (2 : ℚ) ^ (-64 : Int) ≤ value (ofCount i) / value (ofCount last) := by
    rw [zpow_neg, ← one_div]
    exact div_le_div₀ (by linarith) hone (by linarith) hsize
  exact lt_of_lt_of_le (by positivity)
    ((rounds_fraction hpos h hi).power_le (by decide) (by decide) hpart)

/-- The parts go up. -/
theorem fraction_mono (hij : i ≤ j) (hj : j ≤ last) :
    value (fraction last i) ≤ value (fraction last j) := by
  rcases Nat.lt_or_eq_of_le hij with hlt | rfl
  · have hlast := one_le_value_ofCount hpos h
    rcases (value_ofCount_mono (show j < 2 ^ 64 by omega) hij).lt_or_eq with hless | heq
    · exact (rounds_fraction hpos h (hij.trans hj)).mono (rounds_fraction hpos h hj)
        (div_lt_div_of_pos_right hless (by linarith))
    · -- great counts can be rounded to one double
      have hone := one_le_value_ofCount (show 0 < j by omega) (show j < 2 ^ 64 by omega)
      have hsame : ofCount i = ofCount j :=
        eq_of_value (rounds_ofCount (by omega)).isFinite (rounds_ofCount (by omega)).isFinite heq
          (by linarith)
      rw [fraction, hsame]
      exact le_rfl
  · exact le_rfl

end Fractions

/-! ## Parts of the width -/

section Parts

variable (hw : width.isFinite = true) (hnonneg : 0 ≤ value width)
include hw hnonneg

theorem rounds_part (ht : InUnit t) : Rounds (value width * value t) (width * t) := by
  refine rounds_mul hw ht.isFinite ?_
  rw [abs_of_nonneg (mul_nonneg hnonneg ht.nonneg)]
  calc value width * value t ≤ value width := mul_le_of_le_one_right hnonneg ht.le_one
    _ ≤ |value width| := le_abs_self _
    _ < overflowBound := abs_value_lt hw

theorem value_part_zero (ht : InUnit t) (hzero : value t = 0) : value (width * t) = 0 := by
  have hrounds := rounds_part hw hnonneg ht
  rw [hzero, mul_zero, ← value_zero] at hrounds
  rw [hrounds.eq rfl, value_zero]

theorem value_part_one (ht : InUnit t) (hone : value t = 1) :
    value (width * t) = value width := by
  have hrounds := rounds_part hw hnonneg ht
  rw [hone, mul_one] at hrounds
  exact hrounds.eq hw

/-- The parts of a width go up. -/
theorem value_part_mono (ht : InUnit t) (hu : InUnit u) (htu : value t ≤ value u) :
    value (width * t) ≤ value (width * u) := by
  have ht' := rounds_part hw hnonneg ht
  have hu' := rounds_part hw hnonneg hu
  rcases (mul_le_mul_of_nonneg_left htu hnonneg).lt_or_eq with hlt | heq
  · exact ht'.mono hu' hlt
  · rcases hnonneg.eq_or_lt with hzero | hpos
    · -- parts of nothing
      rw [← hzero, zero_mul, ← value_zero] at ht' hu'
      rw [ht'.eq rfl, hu'.eq rfl]
    · have hsame : value t = value u := mul_left_cancel₀ hpos.ne' heq
      rcases eq_or_value_eq_zero ht.isFinite hu.isFinite hsame with rfl | hzero
      · exact le_rfl
      · rw [value_part_zero hw hnonneg ht hzero, value_part_zero hw hnonneg hu (hsame ▸ hzero)]

end Parts

/-! ## Values that go up -/

/-- The values go up from the one double to the other. -/
structure Rises (lo top : Float) (xs : List Float) : Prop where
  rising : xs.Pairwise fun x y => x ≤ y
  between : ∀ x ∈ xs, lo ≤ x ∧ x ≤ top
  first : ∃ x, xs.head? = some x ∧ (x == lo) = true
  last : ∃ x, xs.getLast? = some x ∧ (x == top) = true

theorem linspace_eq (lo hi : Float) (hn : 2 ≤ n) :
    linspace lo hi n =
      (List.range n).map fun i => lo + (hi - lo) * fraction (n - 1) i := by
  obtain ⟨m, rfl⟩ : ∃ m, n = m + 2 := ⟨n - 2, by omega⟩
  rfl

theorem head?_linspace (lo hi : Float) (hn : 2 ≤ n) :
    (linspace lo hi n).head? = some (lo + (hi - lo) * fraction (n - 1) 0) := by
  rw [linspace_eq lo hi hn, List.head?_map, List.head?_range, if_neg (by omega)]
  rfl

theorem getLast?_linspace (lo hi : Float) (hn : 2 ≤ n) :
    (linspace lo hi n).getLast? = some (lo + (hi - lo) * fraction (n - 1) (n - 1)) := by
  rw [linspace_eq lo hi hn, List.getLast?_map, List.getLast?_range, if_neg (by omega)]
  rfl

section Narrow

variable (hlo : lo.isFinite = true) (hw : width.isFinite = true) (hnonneg : 0 ≤ value width)
  (hpos : 0 < last) (h : last < 2 ^ 64)
include hlo hw hnonneg hpos h

theorem lands_spread (hi : i ≤ last) :
    Lands (value lo + value (width * fraction last i)) (lo + width * fraction last i) :=
  lands_add hlo (rounds_part hw hnonneg (fraction_inUnit hpos h hi)).isFinite

/-- The values go up. -/
theorem spread_mono (hij : i ≤ j) (hj : j ≤ last) :
    extended (lo + width * fraction last i) ≤ extended (lo + width * fraction last j) := by
  have hi := fraction_inUnit hpos h (hij.trans hj)
  have hj' := fraction_inUnit hpos h hj
  exact add_mono hlo (rounds_part hw hnonneg hi).isFinite (rounds_part hw hnonneg hj').isFinite
    (value_part_mono hw hnonneg hi hj' (fraction_mono hpos h hij hj))

theorem extended_first : extended (lo + width * fraction last 0) = extended lo := by
  have hlands := lands_spread hlo hw hnonneg hpos h (Nat.zero_le last)
  rw [value_part_zero hw hnonneg (fraction_inUnit hpos h (Nat.zero_le last))
    (value_fraction_zero hpos h), add_zero] at hlands
  exact le_antisymm (hlands.le hlo le_rfl) (hlands.ge hlo le_rfl)

theorem extended_last :
    extended (lo + width * fraction last last) = extended (lo + width) := by
  have hunit := fraction_inUnit hpos h le_rfl
  have hpart := (rounds_part hw hnonneg hunit).isFinite
  have hvalue := value_part_one hw hnonneg hunit (value_fraction_last hpos h)
  exact le_antisymm (add_mono hlo hpart hw hvalue.le) (add_mono hlo hw hpart hvalue.ge)

end Narrow

/-- **Narrow ranges**: the values go up from the lower end to the rounded sum of that end and the
width. -/
theorem narrow_rises (hlo : lo.isFinite = true) (hw : (hi - lo).isFinite = true)
    (hnonneg : 0 ≤ value (hi - lo)) (hn : 2 ≤ n) (hn' : n < 2 ^ 64) :
    Rises lo (lo + (hi - lo)) (linspace lo hi n) := by
  have hpos : 0 < n - 1 := by omega
  have hbound : n - 1 < 2 ^ 64 := by omega
  have hnumber {i} (hi' : i ≤ n - 1) : (lo + (hi - lo) * fraction (n - 1) i).isNaN = false :=
    (lands_spread hlo hw hnonneg hpos hbound hi').isNaN_eq_false
  have hmono {i j} (hij : i ≤ j) (hj : j ≤ n - 1) :=
    spread_mono hlo hw hnonneg hpos hbound hij hj
  have hlo' := isNaN_of_isFinite hlo
  have htop := (lands_add hlo hw).isNaN_eq_false
  have hfirst := extended_first hlo hw hnonneg hpos hbound
  have hlast := extended_last hlo hw hnonneg hpos hbound
  refine ⟨?_, ?_, ⟨_, head?_linspace lo hi hn, ?_⟩, ⟨_, getLast?_linspace lo hi hn, ?_⟩⟩
  · rw [linspace_eq lo hi hn, List.pairwise_map]
    refine List.Pairwise.imp_of_mem (fun {i j} hi' hj' hij => ?_) List.pairwise_lt_range
    have hj' := List.mem_range.1 hj'
    exact (le_iff_extended (hnumber (by omega)) (hnumber (by omega))).2
      (hmono (by omega) (by omega))
  · rw [linspace_eq lo hi hn]
    rintro x hx
    obtain ⟨i, hi', rfl⟩ := List.mem_map.1 hx
    have hi' : i ≤ n - 1 := by
      have := List.mem_range.1 hi'
      omega
    exact ⟨(le_iff_extended hlo' (hnumber hi')).2 (hfirst ▸ hmono (Nat.zero_le i) hi'),
      (le_iff_extended (hnumber hi') htop).2 (hlast ▸ hmono hi' le_rfl)⟩
  · exact (beq_iff_extended (hnumber (Nat.zero_le _)) hlo').2 hfirst
  · exact (beq_iff_extended (hnumber le_rfl) htop).2 hlast

/-- **Wide ranges**: the first value is no number, and all others are infinite. -/
theorem wide_values (hlo : lo.isFinite = true)
    (hw : unpacked (hi - lo) = .infinity .positive) (hn : 2 ≤ n) (hn' : n < 2 ^ 64) :
    ∃ x, x.isNaN = true ∧ linspace lo hi n = x :: List.replicate (n - 1) infinity := by
  have hpos : 0 < n - 1 := by omega
  have hbound : n - 1 < 2 ^ 64 := by omega
  refine ⟨lo + (hi - lo) * fraction (n - 1) 0, add_isNaN lo (infinity_mul_zero hw
    (fraction_inUnit hpos hbound (Nat.zero_le _)).isFinite (value_fraction_zero hpos hbound)), ?_⟩
  obtain ⟨m, rfl⟩ : ∃ m, n = m + 1 := ⟨n - 1, by omega⟩
  rw [linspace_eq lo hi hn, List.range_succ_eq_map, List.map_cons, List.map_map,
    List.cons_inj_right]
  refine List.eq_replicate_iff.2 ⟨by simp, fun x hx => ?_⟩
  obtain ⟨i, hi', rfl⟩ := List.mem_map.1 hx
  have hi' : i + 1 ≤ m := List.mem_range.1 hi'
  exact unpacked_injective (add_infinity hlo (infinity_mul_pos hw
    (fraction_inUnit hpos hbound hi').isFinite (value_fraction_pos hpos hbound hi' i.succ_pos)))

/-! ## From end to end -/

/-- The ends of a domain to walk. -/
theorem ends_of_validDomain (h : Settings.validDomain (lo, hi) = true) :
    lo.isFinite = true ∧ hi.isFinite = true ∧ value lo < value hi := by
  simp only [Settings.validDomain, Bool.and_eq_true, Bool.not_eq_true',
    decide_eq_false_iff_not] at h
  obtain ⟨⟨hlo, hhi⟩, hlt⟩ := h
  exact ⟨hlo, hhi, not_le.1 fun hle => hlt ((le_iff_value hhi hlo).2 hle)⟩

/-- `n` values spread from `lo` to `hi`. -/
structure Spaced (lo hi : Float) (n : Nat) (xs : List Float) : Prop where
  length : xs.length = n
  /-- With a width that is a double, the values go up from the lower end to where it ends. -/
  narrow : (hi - lo).isFinite = true → Rises lo (lo + (hi - lo)) xs
  /-- With a width beyond all doubles, no value lies in the range. -/
  wide : (hi - lo).isFinite = false →
    ∃ x, x.isNaN = true ∧ xs = x :: List.replicate (n - 1) infinity
  /-- The values are those from the one end to the other exactly if the width ends there. -/
  meets : (Rises lo hi xs ∧ ∀ x ∈ xs, x.isFinite = true) ↔ (lo + (hi - lo) == hi) = true
  /-- A width that is not rounded ends at the upper end. -/
  exact : value (hi - lo) = value hi - value lo → (lo + (hi - lo) == hi) = true
  /-- Where no end is beyond a power of two, the width ends two steps from the upper end at most. -/
  close : ∀ k : Int, -1022 ≤ k → k ≤ 1022 → |value lo| ≤ 2 ^ k → |value hi| ≤ 2 ^ k →
    (lo + (hi - lo)).isFinite = true ∧
      |value (lo + (hi - lo)) - value hi| ≤ 2 ^ (k - 52)

theorem Rises.isFinite (h : Rises lo y xs) (hlo : lo.isFinite = true) (hy : y.isFinite = true) :
    ∀ x ∈ xs, x.isFinite = true :=
  fun x hx => isFinite_of_between hlo hy (h.between x hx).1 (h.between x hx).2

/-- Only the number of the upper end counts. -/
theorem Rises.congr (h : Rises lo x xs) (hlo : lo.isFinite = true) (hx : x.isFinite = true)
    (hy : y.isFinite = true) (hxy : value x = value y) : Rises lo y xs := by
  have hfinite := h.isFinite hlo hx
  obtain ⟨z, hz, hlast⟩ := h.last
  refine ⟨h.rising, fun z hz => ⟨(h.between z hz).1, ?_⟩, h.first, ⟨z, hz, ?_⟩⟩
  · have hle := (h.between z hz).2
    rw [le_iff_value (hfinite z hz) hx] at hle
    exact (le_iff_value (hfinite z hz) hy).2 (hle.trans_eq hxy)
  · have hz := hfinite z (List.mem_of_getLast? hz)
    rw [beq_iff_value hz hx] at hlast
    exact (beq_iff_value hz hy).2 (hlast.trans hxy)

/-- What a list ends at is one number. -/
theorem Rises.beq (h : Rises lo x xs) (h' : Rises lo y xs) (hxs : ∀ z ∈ xs, z.isFinite = true)
    (hx : x.isNaN = false) (hy : y.isNaN = false) : (x == y) = true := by
  obtain ⟨z, hz, hlast⟩ := h.last
  obtain ⟨z', hz', hlast'⟩ := h'.last
  obtain rfl : z = z' := Option.some.inj (hz.symm.trans hz')
  have hz := isNaN_of_isFinite (hxs z (List.mem_of_getLast? hz))
  rw [beq_iff_extended hz hx] at hlast
  rw [beq_iff_extended hz hy] at hlast'
  exact (beq_iff_extended hx hy).2 (hlast.symm.trans hlast')

/-- Where no end is beyond a power of two, both roundings are errors of one step at most. -/
theorem top_close {k : Int} (hlo : lo.isFinite = true) (hhi : hi.isFinite = true)
    (hlow : -1022 ≤ k) (hhigh : k ≤ 1022) (hlo' : |value lo| ≤ 2 ^ k) (hhi' : |value hi| ≤ 2 ^ k) :
    (lo + (hi - lo)).isFinite = true ∧ |value (lo + (hi - lo)) - value hi| ≤ 2 ^ (k - 52) := by
  have hdouble : (2 : ℚ) ^ (k + 1) = 2 ^ k + 2 ^ k := by
    rw [zpow_add_one₀ two_ne_zero]
    ring
  have hstep : (2 : ℚ) ^ (k - 52) = 2 ^ (k + 1 - 54) + 2 ^ (k + 1 - 54) := by
    rw [show k - 52 = k + 1 - 54 + 1 by omega, zpow_add_one₀ two_ne_zero]
    ring
  have hsmall : (2 : ℚ) ^ (k + 1 - 54) ≤ 2 ^ k := zpow_le_zpow_right₀ one_le_two (by omega)
  have hbound : (2 : ℚ) ^ (k + 1) < overflowBound :=
    (zpow_le_zpow_right₀ one_le_two (by omega)).trans_lt two_pow_lt_overflowBound
  obtain ⟨hlo₁, hlo₂⟩ := abs_le.1 hlo'
  obtain ⟨hhi₁, hhi₂⟩ := abs_le.1 hhi'
  have hwidth : |value hi - value lo| ≤ 2 ^ (k + 1) := abs_le.2 ⟨by linarith, by linarith⟩
  have hsub := rounds_sub hhi hlo (hwidth.trans_lt hbound)
  have herror := hsub.error_le (by omega) (hwidth.trans_lt hbound) hwidth
  obtain ⟨herror₁, herror₂⟩ := abs_le.1 herror
  have hsum : |value lo + value (hi - lo)| ≤ 2 ^ (k + 1) := abs_le.2 ⟨by linarith, by linarith⟩
  have hadd := rounds_add hlo hsub.isFinite (hsum.trans_lt hbound)
  have herror' := hadd.error_le (by omega) (hsum.trans_lt hbound) hsum
  obtain ⟨herror'₁, herror'₂⟩ := abs_le.1 herror'
  exact ⟨hadd.isFinite, abs_le.2 ⟨by linarith, by linarith⟩⟩

/-- Values that go up to one double are those up to another exactly if the two are equal. -/
theorem Rises.meets_iff (h : Rises lo x xs) (hlo : lo.isFinite = true) (hx : x.isNaN = false)
    (hy : y.isFinite = true) :
    (Rises lo y xs ∧ ∀ z ∈ xs, z.isFinite = true) ↔ (x == y) = true := by
  constructor
  · rintro ⟨h', hxs⟩
    exact h.beq h' hxs hx (isNaN_of_isFinite hy)
  · intro hbeq
    have hx := isFinite_of_extended hx hy ((beq_iff_extended hx (isNaN_of_isFinite hy)).1 hbeq)
    have h' := h.congr hlo hx hy ((beq_iff_value hx hy).1 hbeq)
    exact ⟨h', h'.isFinite hlo hy⟩

theorem spaced_of_narrow (hlo : lo.isFinite = true) (hhi : hi.isFinite = true)
    (hw : (hi - lo).isFinite = true) (hnonneg : 0 ≤ value (hi - lo)) (hn : 2 ≤ n)
    (hn' : n < 2 ^ 64) : Spaced lo hi n (linspace lo hi n) where
  length := linspace_length lo hi n
  narrow _ := narrow_rises hlo hw hnonneg hn hn'
  wide h := absurd (h.symm.trans hw) Bool.false_ne_true
  meets := (narrow_rises hlo hw hnonneg hn hn').meets_iff hlo (lands_add hlo hw).isNaN_eq_false hhi
  exact h := by
    have hlands := lands_add hlo hw
    rw [show value lo + value (hi - lo) = value hi by linarith] at hlands
    have hrounds := hlands.rounds (abs_value_lt hhi)
    exact (beq_iff_value hrounds.isFinite hhi).2 (hrounds.eq hhi)
  close _ hlow hhigh := top_close hlo hhi hlow hhigh

theorem spaced_of_wide (hlo : lo.isFinite = true) (hhi : hi.isFinite = true)
    (hlt : value lo < value hi) (hw : unpacked (hi - lo) = .infinity .positive) (hn : 2 ≤ n)
    (hn' : n < 2 ^ 64) : Spaced lo hi n (linspace lo hi n) where
  length := linspace_length lo hi n
  narrow h := by
    rw [isFinite_eq, hw] at h
    cases h
  wide _ := wide_values hlo hw hn hn'
  meets := by
    constructor
    · rintro ⟨-, hfinite⟩
      obtain ⟨x, hx, hxs⟩ := wide_values hlo hw hn hn'
      have hx' := isNaN_of_isFinite (hfinite x (hxs ▸ List.mem_cons_self))
      exact absurd (hx'.symm.trans hx) Bool.false_ne_true
    · intro hbeq
      have htop := add_infinity hlo hw
      rw [beq_iff_extended (isNaN_of_infinity htop) (isNaN_of_isFinite hhi),
        extended_of_infinity htop] at hbeq
      exact absurd hbeq (extended_lt_top hhi).ne'
  exact h := by
    have hzero : value (hi - lo) = 0 := value_eq hw
    linarith
  close _ hlow hhigh := top_close hlo hhi hlow hhigh

/-- **Values spread over a domain**: they go up from the lower end to where the rounded width ends,
which is the upper end or next to it, unless the width is beyond all doubles. -/
theorem linspace_spaced (hdomain : Settings.validDomain (lo, hi) = true) (hn : 2 ≤ n)
    (hn' : n < 2 ^ 64) : Spaced lo hi n (linspace lo hi n) := by
  obtain ⟨hlo, hhi, hlt⟩ := ends_of_validDomain hdomain
  rcases sub_cases hhi hlo hlt.le with ⟨hw, hnonneg⟩ | hw
  · exact spaced_of_narrow hlo hhi hw hnonneg hn hn'
  · exact spaced_of_wide hlo hhi hlt hw hn hn'

/-- The width of this domain is not rounded. -/
theorem linspace_spaced_symmetric :
    Spaced (-10.0) 10.0 1001 (linspace (-10.0) 10.0 1001) ∧
      ((-10.0 : Float) + (10.0 - -10.0) == 10.0) = true :=
  ⟨linspace_spaced (by decide +kernel) (by decide) (by decide), by decide +kernel⟩

/-- A width that is rounded up takes the last value beyond the upper end. -/
theorem linspace_pastEnd :
    Settings.validDomain (-1.0, 0.1) = true ∧
      (∃ x, (linspace (-1.0) 0.1 2).getLast? = some x ∧ 0.1 < x) ∧
      ¬Rises (-1.0) 0.1 (linspace (-1.0) 0.1 2) := by
  have hlast : (linspace (-1.0) 0.1 2).getLast? =
      some (-1.0 + (0.1 - -1.0) * (ofCount 1 / ofCount 1)) := rfl
  have hpast : (0.1 : Float) < -1.0 + (0.1 - -1.0) * (ofCount 1 / ofCount 1) := by decide +kernel
  refine ⟨by decide +kernel, ⟨_, hlast, hpast⟩, fun hrises => ?_⟩
  have hle := (hrises.between _ (List.mem_of_getLast? hlast)).2
  revert hle
  decide +kernel

end CurveArt.Curve
