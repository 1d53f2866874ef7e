import CurveArt.Decimal.Selection
import CurveArt.Proofs.Binary64.Scientific

/-!
# The shortest decimal rounds to its double

The reals that round to a double `m · 2^q` make an interval, which has its ends exactly if `m` is
even. The search for a short decimal keeps to the multiples of a power of ten that lie in it. On the
grid of the seventeenth digit there is one, as the interval is wider than a step of that grid, and
every coarser grid that the search moves to still has one. So the decimal that it ends with lies in
the interval and rounds to the double.

Main results:

* `gridBounds_iff`: the bounds on a grid are those of the multiples in the interval.
* `leadingExponent_le`: the leading digit is not estimated too high.
* `exists_readsBack_finest`: seventeen digits suffice.
* `shortest_roundsTo`: the shortest decimal rounds to its double.
* `shortest_digits_lt`: its digits fit a word.
-/

namespace CurveArt.Decimal

open Binary64

variable {m : Nat} {q : Int}

/-! ## Multiples on a grid -/

theorem onGrid_den_pos (a : Nat) (q k : Int) : 0 < (onGrid a q k).2 :=
  Nat.mul_pos (Nat.pow_pos (by decide)) (Nat.pow_pos (by decide))

/-- A power is a fraction of the power of the positive part over that of the negative part. -/
theorem zpow_eq_div (b : ℚ) (hb : b ≠ 0) (k : Int) :
    b ^ k = b ^ k.toNat / b ^ (-k).toNat := by
  rw [← zpow_natCast, ← zpow_natCast, ← zpow_sub₀ hb]
  congr 1
  omega

theorem onGrid_div (a : Nat) (q k : Int) :
    ((onGrid a q k).1 : ℚ) / (onGrid a q k).2 = a * 2 ^ q / 10 ^ k := by
  rw [zpow_eq_div 2 two_ne_zero, zpow_eq_div 10 (by norm_num)]
  show ((a * 2 ^ q.toNat * 10 ^ (-k).toNat : Nat) : ℚ) /
    ((2 ^ (-q).toNat * 10 ^ k.toNat : Nat) : ℚ) = _
  push_cast
  field_simp

/-- A number lies between two bounds, or between them and at them. -/
def Between (closed : Bool) (low high x : ℚ) : Prop :=
  if closed then low ≤ x ∧ x ≤ high else low < x ∧ x < high

/-- The least and the greatest multiple of `10^k` between two bounds in units of `2^q`. -/
def gridBounds (closed : Bool) (low high : Nat) (q k : Int) : Nat × Nat :=
  if closed then
    (((onGrid low q k).1 + (onGrid low q k).2 - 1) / (onGrid low q k).2,
      (onGrid high q k).1 / (onGrid high q k).2)
  else
    ((onGrid low q k).1 / (onGrid low q k).2 + 1,
      ((onGrid high q k).1 - 1) / (onGrid high q k).2)

/-- The multiples of `10^k` between the bounds are those that the bounds on the grid say. -/
theorem gridBounds_iff {closed : Bool} {low high : Nat} {k : Int} {n : Nat} (hhigh : 0 < high) :
    (gridBounds closed low high q k).1 ≤ n ∧ n ≤ (gridBounds closed low high q k).2 ↔
      Between closed ((low : ℚ) * 2 ^ q) (high * 2 ^ q) (n * 10 ^ k) := by
  have hten : (0 : ℚ) < 10 ^ k := by positivity
  have hlow := onGrid_den_pos low q k
  have hhigh' := onGrid_den_pos high q k
  have hlow₀ : (0 : ℚ) < (onGrid low q k).2 := by exact_mod_cast hlow
  have hhigh₀ : (0 : ℚ) < (onGrid high q k).2 := by exact_mod_cast hhigh'
  have hratio := onGrid_div low q k
  have hratio' := onGrid_div high q k
  have hnum : 0 < (onGrid high q k).1 := by
    show 0 < high * 2 ^ q.toNat * 10 ^ (-k).toNat
    positivity
  -- every bound compares a fraction of natural numbers with `n`
  have hle : (low : ℚ) * 2 ^ q ≤ n * 10 ^ k ↔ (onGrid low q k).1 ≤ n * (onGrid low q k).2 := by
    rw [← div_le_iff₀ hten, ← hratio, div_le_iff₀ hlow₀]
    norm_cast
  have hlt : (low : ℚ) * 2 ^ q < n * 10 ^ k ↔ (onGrid low q k).1 < n * (onGrid low q k).2 := by
    rw [← div_lt_iff₀ hten, ← hratio, div_lt_iff₀ hlow₀]
    norm_cast
  have hge : (n : ℚ) * 10 ^ k ≤ high * 2 ^ q ↔ n * (onGrid high q k).2 ≤ (onGrid high q k).1 := by
    rw [← le_div_iff₀ hten, ← hratio', le_div_iff₀ hhigh₀]
    norm_cast
  have hgt : (n : ℚ) * 10 ^ k < high * 2 ^ q ↔ n * (onGrid high q k).2 < (onGrid high q k).1 := by
    rw [← lt_div_iff₀ hten, ← hratio', lt_div_iff₀ hhigh₀]
    norm_cast
  cases closed with
  | true =>
    show ((onGrid low q k).1 + (onGrid low q k).2 - 1) / (onGrid low q k).2 ≤ n ∧
      n ≤ (onGrid high q k).1 / (onGrid high q k).2 ↔ _ ∧ _
    rw [hle, hge, Nat.le_div_iff_mul_le hhigh', ← Nat.lt_succ_iff, Nat.div_lt_iff_lt_mul hlow,
      Nat.succ_mul]
    refine and_congr_left fun _ => ?_
    omega
  | false =>
    show (onGrid low q k).1 / (onGrid low q k).2 + 1 ≤ n ∧
      n ≤ ((onGrid high q k).1 - 1) / (onGrid high q k).2 ↔ _ ∧ _
    rw [hlt, hgt, Nat.le_div_iff_mul_le hhigh', Nat.succ_le_iff, Nat.div_lt_iff_lt_mul hlow]
    refine and_congr_right fun _ => ?_
    omega

/-! ## The leading digit -/

/-- The fixed-point constant stays below the logarithm of two over the range of doubles. -/
theorem estimate_table : ∀ i : Fin 2098,
    10 ^ ((((i : Int) - 1074) * 78913).fdiv 262144).toNat * 2 ^ (-((i : Int) - 1074)).toNat ≤
      2 ^ ((i : Int) - 1074).toNat * 10 ^ (-(((i : Int) - 1074) * 78913).fdiv 262144).toNat := by
  decide +kernel

theorem pow_estimate_le {t : Int} (hlow : -1074 ≤ t) (hhigh : t ≤ 1023) :
    (10 : ℚ) ^ ((t * 78913).fdiv 262144) ≤ 2 ^ t := by
  have htable := estimate_table ⟨(t + 1074).toNat, by omega⟩
  have hindex : (((t + 1074).toNat : Nat) : Int) - 1074 = t := by omega
  simp only [hindex] at htable
  rw [zpow_eq_div 10 (by norm_num), zpow_eq_div 2 two_ne_zero,
    div_le_div_iff₀ (by positivity) (by positivity)]
  exact_mod_cast htable

/-- The exponent of the leading digit is not too high. -/
theorem leadingExponent_le (hc : Canonical m q) : (10 : ℚ) ^ leadingExponent m q ≤ m * 2 ^ q := by
  have hlog : m.log2 < 53 := (Nat.log2_lt hc.pos.ne').2 hc.lt
  have hleast := hc.least
  have hgreatest := hc.greatest
  rw [leadingExponent]
  dsimp only
  split
  · -- the next power of ten is compared exactly
    next hnext =>
    have hden := onGrid_den_pos m q ((((m.log2 : Int) + q) * 78913).fdiv 262144 + 1)
    have hratio := onGrid_div m q ((((m.log2 : Int) + q) * 78913).fdiv 262144 + 1)
    have hone : (1 : ℚ) ≤ (onGrid m q ((((m.log2 : Int) + q) * 78913).fdiv 262144 + 1)).1 /
        (onGrid m q ((((m.log2 : Int) + q) * 78913).fdiv 262144 + 1)).2 :=
      (one_le_div (by exact_mod_cast hden)).2 (by exact_mod_cast hnext)
    rw [hratio, le_div_iff₀ (by positivity), one_mul] at hone
    exact hone
  · refine (pow_estimate_le (by omega) (by omega)).trans ?_
    rw [zpow_add₀ two_ne_zero, zpow_natCast]
    have hm : (2 : ℚ) ^ m.log2 ≤ m := by exact_mod_cast Nat.log2_self_le hc.pos.ne'
    exact mul_le_mul_of_nonneg_right hm (by positivity)

/-! ## The interval of a double -/

/-- The search takes the number `x` to read back to the double `m · 2^q`. -/
def ReadsBack (m : Nat) (q : Int) (x : ℚ) : Prop :=
  Between (readBackInterval m q).2.2 (((readBackInterval m q).1 : ℚ) * 2 ^ (q - 2))
    ((readBackInterval m q).2.1 * 2 ^ (q - 2)) x

/-- How far the interval goes below the double, in quarters of a step. -/
def quartersBelow (m : Nat) (q : Int) : Nat :=
  if m = hiddenBit ∧ -1074 < q then 1 else 2

theorem between_div {closed : Bool} {low high x s : ℚ} (hs : 0 < s) :
    Between closed low high x ↔ Between closed (low / s) (high / s) (x / s) := by
  rw [Between, Between]
  split
  · rw [div_le_div_iff_of_pos_right hs, div_le_div_iff_of_pos_right hs]
  · rw [div_lt_div_iff_of_pos_right hs, div_lt_div_iff_of_pos_right hs]

/-- The interval in steps of the double. -/
theorem readsBack_iff (hm : 0 < m) {x : ℚ} :
    ReadsBack m q x ↔
      Between (m % 2 == 0) (m - quartersBelow m q / 4) (m + 1 / 2) (x / 2 ^ q) := by
  have hbelow : quartersBelow m q ≤ 4 * m := by
    rw [quartersBelow]
    split <;> omega
  have hpos : (0 : ℚ) < 2 ^ q := by positivity
  have hquarter : (2 : ℚ) ^ (q - 2) / 2 ^ q = 1 / 4 := by
    rw [zpow_sub₀ two_ne_zero, div_right_comm, div_self hpos.ne']
    norm_num
  rw [ReadsBack, between_div hpos, mul_div_assoc, mul_div_assoc, hquarter]
  show Between (m % 2 == 0) (((4 * m - quartersBelow m q : Nat) : ℚ) * (1 / 4))
    (((4 * m + 2 : Nat) : ℚ) * (1 / 4)) _ ↔ _
  rw [Nat.cast_sub hbelow]
  push_cast
  ring_nf

/-- A number in the interval does round to the double. -/
theorem ReadsBack.roundsTo (hc : Canonical m q) {x : ℚ} (h : ReadsBack m q x) :
    RoundsTo x m q := by
  rw [readsBack_iff hc.pos, Between] at h
  have hbelow : (quartersBelow m q : ℚ) ≤ 2 := by
    rw [quartersBelow]
    split <;> norm_num
  have hclose : m = 2 ^ 52 → -1074 < q → (quartersBelow m q : ℚ) = 1 := by
    intro hm hq
    rw [quartersBelow, if_pos ⟨hm, hq⟩, Nat.cast_one]
  -- the ends belong to the interval only for an even mantissa, which is where ties go to the double
  split at h
  · next heven =>
    rw [beq_iff_eq] at heven
    refine ⟨hc, ⟨?_, h.2, fun hodd => ?_⟩, fun hm hq => ?_⟩
    · linarith
    · omega
    · have := hclose hm hq
      linarith
  · refine ⟨hc, ⟨?_, h.2.le, fun _ => ⟨?_, h.2⟩⟩, fun hm hq => ?_⟩
    · linarith
    · linarith
    · have := hclose hm hq
      linarith

/-- An interval longer than a step has a multiple of the step inside. -/
theorem exists_multiple {low high s : ℚ} (hlow : 0 ≤ low) (hs : 0 < s) (h : low + s < high) :
    ∃ n : Nat, low < n * s ∧ n * s < high := by
  refine ⟨⌊low / s⌋₊ + 1, ?_, ?_⟩
  · rw [← div_lt_iff₀ hs]
    exact_mod_cast Nat.lt_floor_add_one (low / s)
  · have hfloor : (⌊low / s⌋₊ : ℚ) * s ≤ low := by
      rw [← le_div_iff₀ hs]
      exact Nat.floor_le (by positivity)
    push_cast
    linarith

theorem between_of_lt {closed : Bool} {low high x : ℚ} (h : low < x ∧ x < high) :
    Between closed low high x := by
  rw [Between]
  split
  · exact ⟨h.1.le, h.2.le⟩
  · exact h

/-- **Seventeen digits suffice.** -/
theorem exists_readsBack_finest (hc : Canonical m q) :
    ∃ n : Nat, ReadsBack m q (n * 10 ^ (leadingExponent m q - 16)) := by
  have hpos : (0 : ℚ) < 2 ^ q := by positivity
  have hleading := leadingExponent_le hc
  -- the step is the leading power of ten less sixteen digits
  set step : ℚ := 10 ^ (leadingExponent m q - 16) / 2 ^ q with hstep
  have hstep₀ : 0 < step := by positivity
  have hlong : step * 10 ^ 16 ≤ m := by
    have hsplit : (10 : ℚ) ^ (leadingExponent m q - 16) * 10 ^ 16 = 10 ^ leadingExponent m q := by
      rw [← zpow_natCast, ← zpow_add₀ (by norm_num)]
      congr 1
      omega
    rw [hstep, div_mul_eq_mul_div, hsplit, div_le_iff₀ hpos]
    exact hleading
  have hm : (m : ℚ) + 1 ≤ 2 ^ 53 := by exact_mod_cast hc.lt
  have hm₀ : (1 : ℚ) ≤ m := by exact_mod_cast hc.pos
  -- below a power of two the interval is shorter, but there the mantissa is the least one
  have hwide : (m - quartersBelow m q / 4 : ℚ) + step < m + 1 / 2 := by
    rw [quartersBelow]
    split
    · next hleast =>
      have hm' : (m : ℚ) = 2 ^ 52 := by exact_mod_cast hleast.1
      push_cast
      linarith
    · push_cast
      linarith
  have hbelow : (quartersBelow m q : ℚ) ≤ 2 := by
    rw [quartersBelow]
    split <;> norm_num
  obtain ⟨n, hn⟩ := exists_multiple (by linarith) hstep₀ hwide
  refine ⟨n, (readsBack_iff hc.pos).2 (between_of_lt ?_)⟩
  rwa [mul_div_assoc]

/-! ## The search -/

/-- A search ends on a grid that still has a multiple between the bounds. -/
theorem coarsen_spec (fuel : Nat) {low high : Nat} (k : Int) (h : low ≤ high) :
    ∃ i n : Nat, coarsen fuel low high k = k + i ∧ low ≤ n * 10 ^ i ∧ n * 10 ^ i ≤ high := by
  induction fuel generalizing low high k with
  | zero => exact ⟨0, low, by simp [coarsen], by simp, by simpa using h⟩
  | succ fuel ih =>
    rw [coarsen]
    split
    · -- ten steps of this grid are one of the next
      next hnext =>
      obtain ⟨i, n, hk, hlow, hhigh⟩ := ih (k + 1) hnext
      refine ⟨i + 1, n, ?_, ?_, ?_⟩
      · rw [hk]
        push_cast
        ring
      · rw [pow_succ, ← mul_assoc]
        omega
      · rw [pow_succ, ← mul_assoc]
        omega
    · exact ⟨0, low, by simp, by simp, by simpa using h⟩

/-- The bounds that the search works with. -/
def searchBounds (m : Nat) (q k : Int) : Nat × Nat :=
  gridBounds (readBackInterval m q).2.2 (readBackInterval m q).1 (readBackInterval m q).2.1
    (q - 2) k

theorem searchBounds_iff (k : Int) {n : Nat} :
    (searchBounds m q k).1 ≤ n ∧ n ≤ (searchBounds m q k).2 ↔ ReadsBack m q (n * 10 ^ k) :=
  gridBounds_iff (Nat.succ_pos _)

/-- The grid that the search ends on. -/
def shortestExponent (m : Nat) (q : Int) : Int :=
  coarsen 20 (searchBounds m q (leadingExponent m q - 16)).1
    (searchBounds m q (leadingExponent m q - 16)).2 (leadingExponent m q - 16)

theorem shortest_eq (tie : Tie) (m : Nat) (q : Int) :
    shortest tie m q =
      ⟨max (searchBounds m q (shortestExponent m q)).1
        (min (searchBounds m q (shortestExponent m q)).2
          (roundQuotient tie (onGrid m q (shortestExponent m q)).1
            (onGrid m q (shortestExponent m q)).2)), shortestExponent m q⟩ := by
  rfl

/-- **The shortest decimal rounds to its double.** -/
theorem shortest_roundsTo (tie : Tie) (hc : Canonical m q) :
    RoundsTo ((shortest tie m q).digits * 10 ^ (shortest tie m q).exponent) m q := by
  obtain ⟨n, hn⟩ := exists_readsBack_finest hc
  have hfinest := (searchBounds_iff _).2 hn
  obtain ⟨i, n', hk, hlow, hhigh⟩ :=
    coarsen_spec 20 (leadingExponent m q - 16) (hfinest.1.trans hfinest.2)
  -- the multiple that the search has left is one on its last grid
  have hread := (searchBounds_iff _).1 ⟨hlow, hhigh⟩
  have hgrid : ((n' * 10 ^ i : Nat) : ℚ) * 10 ^ (leadingExponent m q - 16) =
      n' * 10 ^ shortestExponent m q := by
    rw [shortestExponent, hk, zpow_add₀ (by norm_num), zpow_natCast]
    push_cast
    ring
  rw [hgrid] at hread
  obtain ⟨hlow', hhigh'⟩ := (searchBounds_iff _).2 hread
  rw [shortest_eq]
  exact ((searchBounds_iff _).1
    ⟨le_max_left _ _, max_le (hlow'.trans hhigh') (min_le_left _ _)⟩).roundsTo hc

/-! ## How many digits -/

theorem le_coarsen (fuel low high : Nat) (k : Int) : k ≤ coarsen fuel low high k := by
  induction fuel generalizing low high k with
  | zero => exact le_rfl
  | succ fuel ih =>
    rw [coarsen]
    split
    · exact (Int.le_add_one le_rfl).trans (ih _ _ (k + 1))
    · exact le_rfl

theorem estimate_table_above : ∀ i : Fin 2098,
    2 ^ ((i : Int) - 1073).toNat * 10 ^ (-((((i : Int) - 1074) * 78913).fdiv 262144 + 2)).toNat ≤
      10 ^ ((((i : Int) - 1074) * 78913).fdiv 262144 + 2).toNat * 2 ^ (-((i : Int) - 1073)).toNat := by
  decide +kernel

theorem pow_le_estimate {t : Int} (hlow : -1074 ≤ t) (hhigh : t ≤ 1023) :
    (2 : ℚ) ^ (t + 1) ≤ 10 ^ ((t * 78913).fdiv 262144 + 2) := by
  have htable := estimate_table_above ⟨(t + 1074).toNat, by omega⟩
  have hindex : (((t + 1074).toNat : Nat) : Int) - 1074 = t := by omega
  have hindex' : (((t + 1074).toNat : Nat) : Int) - 1073 = t + 1 := by omega
  simp only [hindex, hindex'] at htable
  rw [zpow_eq_div 10 (by norm_num), zpow_eq_div 2 two_ne_zero,
    div_le_div_iff₀ (by positivity) (by positivity)]
  exact_mod_cast htable

/-- The exponent of the leading digit is at most one too low. -/
theorem lt_leadingExponent (hc : Canonical m q) :
    (m : ℚ) * 2 ^ q < 10 ^ (leadingExponent m q + 2) := by
  have hlog : m.log2 < 53 := (Nat.log2_lt hc.pos.ne').2 hc.lt
  have hleast := hc.least
  have hgreatest := hc.greatest
  have hestimate : (((m.log2 : Int) + q) * 78913).fdiv 262144 ≤ leadingExponent m q := by
    rw [leadingExponent]
    dsimp only
    split <;> omega
  have hm : (m : ℚ) < 2 ^ (m.log2 + 1) := by exact_mod_cast Nat.lt_log2_self
  calc (m : ℚ) * 2 ^ q < 2 ^ (m.log2 + 1) * 2 ^ q := by gcongr
    _ = 2 ^ ((m.log2 : Int) + q + 1) := by
        rw [← zpow_natCast, ← zpow_add₀ two_ne_zero]
        congr 1
        push_cast
        ring
    _ ≤ 10 ^ ((((m.log2 : Int) + q) * 78913).fdiv 262144 + 2) :=
        pow_le_estimate (by omega) (by omega)
    _ ≤ 10 ^ (leadingExponent m q + 2) := zpow_le_zpow_right₀ (by norm_num) (by omega)

theorem shortest_digits_pos (tie : Tie) (hc : Canonical m q) : 0 < (shortest tie m q).digits := by
  have hleast := (shortest_roundsTo tie hc).least_le
  rw [Nat.pos_iff_ne_zero]
  intro hzero
  rw [hzero, Nat.cast_zero, zero_mul] at hleast
  exact absurd hleast (not_le.2 (by positivity))

/-- **The digits of the shortest decimal fit a word.** -/
theorem shortest_digits_lt (tie : Tie) (hc : Canonical m q) :
    (shortest tie m q).digits < 2 ^ 64 := by
  have hrounds := shortest_roundsTo tie hc
  have hexponent : leadingExponent m q - 16 ≤ (shortest tie m q).exponent := by
    rw [shortest_eq]
    exact le_coarsen ..
  have hpos : (0 : ℚ) < 10 ^ (leadingExponent m q - 16) := by positivity
  have hm : (1 : ℚ) ≤ m := by exact_mod_cast hc.pos
  have hlt : ((shortest tie m q).digits : ℚ) < 3 / 2 * 10 ^ (18 : Nat) := by
    refine lt_of_mul_lt_mul_right ?_ hpos.le
    calc ((shortest tie m q).digits : ℚ) * 10 ^ (leadingExponent m q - 16)
        ≤ (shortest tie m q).digits * 10 ^ (shortest tie m q).exponent := by
          gcongr
          norm_num
      _ ≤ (m + 1 / 2) * 2 ^ q := by
          rw [← div_le_iff₀ (by positivity)]
          exact hrounds.nearest.upper
      _ ≤ 3 / 2 * (m * 2 ^ q) := by
          rw [← mul_assoc]
          gcongr
          linarith
      _ < 3 / 2 * 10 ^ (leadingExponent m q + 2) := by
          gcongr
          exact lt_leadingExponent hc
      _ = 3 / 2 * 10 ^ (18 : Nat) * 10 ^ (leadingExponent m q - 16) := by
          rw [mul_assoc, ← zpow_natCast, ← zpow_add₀ (by norm_num)]
          congr 2
          omega
  have hbound : ((shortest tie m q).digits : ℚ) < 2 ^ (64 : Nat) := hlt.trans_le (by norm_num)
  exact_mod_cast hbound

end CurveArt.Decimal
