import CurveArt.Color.Scheme
import CurveArt.Proofs.Binary64.Extrema
import CurveArt.Proofs.Binary64.Hypotenuse
import CurveArt.Proofs.Binary64.UnitInterval

/-!
# The range of channels

A channel between two others is computed with four roundings, and each of them could carry it out of
`[0, 1]`. None does: the two weights add up to at most `1 + 2⁻⁵⁴`, and the least double above `1` is
too far away for that to be rounded up.

The weights are the places of points. Those in a sequence are quotients of counts. Those by distance
are quotients of distances, and here doubles come to their end: a finite point can be so far away
that its distance is infinite, and then it has no place at all.

Main results:

* `mix_inUnit`: what lies between two channels is a channel.
* `linearPlaces_inUnit`: places in a sequence.
* `radialPlaces_eq`: places by distance, and when there is none.
-/

namespace CurveArt

open Binary64

variable {x y u v t : Float}

/-! ## Mixing -/

/-- **What lies between two channels is a channel.** -/
theorem mix_inUnit (hu : InUnit u) (hv : InUnit v) (ht : InUnit t) : InUnit (Rgba.mix u v t) := by
  obtain ⟨hrest, hrest'⟩ := ht.rest
  obtain ⟨hfirst, hfirst'⟩ := hu.mul hrest
  obtain ⟨hsecond, hsecond'⟩ := hv.mul ht
  have hnonneg : 0 ≤ value (u * (1.0 - t)) + value (v * t) :=
    add_nonneg hfirst.nonneg hsecond.nonneg
  -- together the weights are one, up to an error that is too small to reach the next double
  have hsmall : value (u * (1.0 - t)) + value (v * t) < 1 + 2 ^ (-53 : Int) := by
    have hstep : (2 : ℚ) ^ (-54 : Int) < 2 ^ (-53 : Int) :=
      zpow_lt_zpow_right₀ one_lt_two (by decide)
    linarith
  have hone : (2 : ℚ) ^ (-53 : Int) ≤ 1 := zpow_le_one_of_nonpos₀ one_le_two (by decide)
  have hsum : Rounds (value (u * (1.0 - t)) + value (v * t)) (Rgba.mix u v t) :=
    rounds_add hfirst.isFinite hsecond.isFinite
      (lt_overflowBound_of_le_two hnonneg (by linarith))
  exact ⟨hsum.isFinite, hsum.nonneg hnonneg, le_one_of_rounds hsum hsmall⟩

/-- Nothing lies between two channels at a place that is no number. -/
theorem mix_isNaN (u v : Float) (h : t.isNaN = true) : (Rgba.mix u v t).isNaN = true :=
  add_isNaN _ (mul_isNaN v h)

/-! ## Places in a sequence -/

/-- **Places in a sequence** lie in the unit interval. -/
theorem ColorScheme.linearPlaces_inUnit {n : Nat} (hn : n ≤ 2 ^ 53) (ht : t ∈ linearPlaces n) :
    InUnit t := by
  rw [linearPlaces] at ht
  obtain ⟨i, hi, rfl⟩ := List.mem_map.1 ht
  have hi := List.mem_range.1 hi
  obtain ⟨hfinite, hvalue⟩ := value_ofCount (show i < 2 ^ 53 by omega)
  obtain ⟨hfinite', hvalue'⟩ := value_ofCount (show max (n - 1) 1 < 2 ^ 53 by omega)
  refine quotient_inUnit hfinite hfinite' ?_ ?_ ?_
  · rw [hvalue]
    exact Nat.cast_nonneg i
  · rw [hvalue, hvalue']
    exact_mod_cast (show i ≤ max (n - 1) 1 by omega)
  · rw [hvalue']
    exact_mod_cast (show 0 < max (n - 1) 1 by omega)

/-! ## Drawn channels -/

theorem unit_inUnit (s : Random.Stream) : InUnit s.unit.1 := by
  obtain ⟨hbits, hfinite, hvalue⟩ := value_upperBits s.longWord.1
    (k := 11) (by decide) (by decide)
  have hstep : value (Float.ofBits 0x3ca0000000000000) = 2 ^ (-53 : Int) :=
    value_power (show unpacked (Float.ofBits 0x3ca0000000000000) =
      .finite .positive (2 ^ 52) (-105) (by decide) from rfl)
  have hrounds := rounds_reduced hfinite rfl hstep (by decide)
  have hless : ((s.longWord.1 >>> 11).toNat : ℚ) ≤ 2 ^ (53 : Nat) := by exact_mod_cast hbits.le
  rw [hvalue] at hrounds
  refine inUnit_of_rounds hrounds (by positivity) ?_
  calc ((s.longWord.1 >>> 11).toNat : ℚ) * 2 ^ (-53 : Int)
      ≤ 2 ^ (53 : Nat) * 2 ^ (-53 : Int) := mul_le_mul_of_nonneg_right hless (by positivity)
    _ = 1 := by norm_num

/-! ## Places by distance -/

variable {d near far : Float}

theorem value_radialMargin :
    ColorScheme.radialMargin.isFinite = true ∧ 0 < value ColorScheme.radialMargin ∧
      value ColorScheme.radialMargin ≤ 1 := by
  have hfinite : ColorScheme.radialMargin.isFinite = true := by decide +kernel
  have hpos : 0.0 < ColorScheme.radialMargin := by decide +kernel
  have hone : ColorScheme.radialMargin ≤ 1.0 := by decide +kernel
  rw [lt_iff_value rfl hfinite, value_zero] at hpos
  rw [le_iff_value hfinite rfl, value_one] at hone
  exact ⟨hfinite, hpos, hone⟩

/-- The difference of two distances. -/
theorem rounds_distance (hx : x.isFinite = true) (ht : t.isFinite = true)
    (hnonneg : 0 ≤ value t) (hle : value t ≤ value x) : Rounds (value x - value t) (x - t) := by
  refine rounds_sub hx ht ?_
  rw [abs_of_nonneg (by linarith)]
  calc value x - value t ≤ |value x| := (by linarith : value x - value t ≤ value x).trans
        (le_abs_self _)
    _ < overflowBound := abs_value_lt hx

/-- The difference to the nearest distance grows with the distance. -/
theorem value_sub_mono (hx : x.isFinite = true) (hy : y.isFinite = true) (ht : t.isFinite = true)
    (hnonneg : 0 ≤ value t) (htx : value t ≤ value x) (hxy : value x ≤ value y) :
    value (x - t) ≤ value (y - t) := by
  have hfirst := rounds_distance hx ht hnonneg htx
  have hsecond := rounds_distance hy ht hnonneg (htx.trans hxy)
  rcases hxy.lt_or_eq with hlt | heq
  · exact hfirst.mono hsecond (by linarith)
  · by_cases hzero : value x = 0
    · -- zeros of either sign have the same differences
      have hnone : value t = 0 := le_antisymm (hzero ▸ htx) hnonneg
      rw [← heq] at hsecond
      rw [hzero, hnone, sub_zero, ← value_zero] at hfirst hsecond
      rw [hfirst.eq rfl, hsecond.eq rfl]
    · rw [eq_of_value hx hy heq hzero]

/-- Where both the distance and the farthest one are doubles, the place is their quotient. -/
theorem place_inUnit (hd : d.isFinite = true) (hnear : near.isFinite = true)
    (hfar : far.isFinite = true) (hnonneg : 0 ≤ value near) (hle : value near ≤ value d)
    (hle' : value d ≤ value far) :
    InUnit ((d - near) / (far - near + ColorScheme.radialMargin)) := by
  obtain ⟨hmargin, hpos, hone⟩ := value_radialMargin
  have hpart := rounds_distance hd hnear hnonneg hle
  have hwhole := rounds_distance hfar hnear hnonneg (hle.trans hle')
  have hmono := value_sub_mono hd hfar hnear hnonneg hle hle'
  have hpart' := hpart.nonneg (by linarith)
  have hwhole' : value (far - near) ≤ value far := hwhole.le hfar (by linarith)
  have hsum : Rounds (value (far - near) + value ColorScheme.radialMargin)
      (far - near + ColorScheme.radialMargin) := by
    refine rounds_add hwhole.isFinite hmargin ?_
    rw [abs_of_nonneg (by linarith)]
    have hbound := abs_value_add_one_lt hfar
    have habs := le_abs_self (value far)
    linarith
  -- the margin makes the divisor positive, and no less than the difference
  have hdivisor := hsum.ge hmargin (by linarith)
  have hdivisor' := hsum.ge hwhole.isFinite (by linarith)
  exact quotient_inUnit hpart.isFinite hsum.isFinite hpart' (by linarith) (by linarith)

/-- Next to an infinite distance all others count for nothing. -/
theorem place_inUnit_of_infinity (hd : d.isFinite = true) (hnear : near.isFinite = true)
    (hfar : unpacked far = .infinity .positive) (hnonneg : 0 ≤ value near)
    (hle : value near ≤ value d) :
    InUnit ((d - near) / (far - near + ColorScheme.radialMargin)) := by
  have hpart := rounds_distance hd hnear hnonneg hle
  have hdivisor := infinity_add (infinity_sub hfar hnear) value_radialMargin.1
  exact inUnit_of_rounds (rounds_div_infinity hpart.isFinite hdivisor) le_rfl zero_le_one

/-- An infinite distance has no place. -/
theorem place_isNaN (hd : unpacked d = .infinity .positive)
    (hfar : unpacked far = .infinity .positive)
    (hnear : near.isFinite = true ∨ unpacked near = .infinity .positive) :
    ((d - near) / (far - near + ColorScheme.radialMargin)).isNaN = true := by
  rcases hnear with hnear | hnear
  · exact infinity_div_infinity (infinity_sub hd hnear)
      (infinity_add (infinity_sub hfar hnear) value_radialMargin.1)
  · exact div_isNaN (infinity_sub_infinity hd hnear) _

/-- The nearest and the farthest of all distances are distances themselves. -/
theorem extremes {distances : List Float} (hunsigned : ∀ x ∈ distances, Unsigned x)
    (hd : d ∈ distances) :
    (Unsigned (distances.foldl least infinity) ∧
      extended (distances.foldl least infinity) ≤ extended d) ∧
    Unsigned (distances.foldl greatest (-infinity)) ∧
      extended d ≤ extended (distances.foldl greatest (-infinity)) := by
  have hnumbers : ∀ x ∈ distances, x.isNaN = false := fun x hx => (hunsigned x hx).isNaN_eq_false
  obtain ⟨hnear, hbelow⟩ := chooses_least.foldl infinity rfl hnumbers
  obtain ⟨hfar, habove⟩ := chooses_greatest.foldl (-infinity) rfl hnumbers
  have habove := habove d (List.mem_cons_of_mem _ hd)
  refine ⟨⟨?_, hbelow d (List.mem_cons_of_mem _ hd)⟩, ?_, habove⟩
  · rcases List.mem_cons.1 hnear with h | h
    · rw [h]
      trivial
    · exact hunsigned _ h
  · rcases List.mem_cons.1 hfar with h | h
    · -- no distance is as low as the start of the search for the farthest
      rw [h, extended_of_minus (show unpacked (-infinity) = .infinity .negative from rfl)] at habove
      refine absurd habove (not_le.2 ?_)
      rcases (hunsigned d hd).isFinite_or_infinity with ⟨hfinite, -⟩ | hinfinite
      · exact bot_lt_extended hfinite
      · rw [extended_of_infinity hinfinite]
        exact bot_lt_top
    · exact hunsigned _ h

/-- The place of a distance among all of them. -/
theorem place_cases {distances : List Float} (hunsigned : ∀ x ∈ distances, Unsigned x)
    (hd : d ∈ distances) :
    let near := distances.foldl least infinity
    let far := distances.foldl greatest (-infinity)
    let place := (d - near) / (far - near + ColorScheme.radialMargin)
    if d.isFinite then InUnit place else place.isNaN = true := by
  obtain ⟨⟨hnear, hbelow⟩, hfar, habove⟩ := extremes hunsigned hd
  intro near far place
  rcases (hunsigned d hd).isFinite_or_infinity with ⟨hfinite, -⟩ | hinfinite
  · rw [if_pos hfinite]
    rcases hnear.isFinite_or_infinity with ⟨hnear', hnonneg⟩ | hnear'
    · have hle := value_le_of_extended hnear' hfinite hbelow
      rcases hfar.isFinite_or_infinity with ⟨hfar', -⟩ | hfar'
      · exact place_inUnit hfinite hnear' hfar' hnonneg hle
          (value_le_of_extended hfinite hfar' habove)
      · exact place_inUnit_of_infinity hfinite hnear' hfar' hnonneg hle
    · rw [extended_of_infinity hnear'] at hbelow
      exact absurd hbelow (not_le.2 (extended_lt_top hfinite))
  · have hnot : ¬d.isFinite = true := by
      rw [isFinite_eq, hinfinite]
      exact Bool.false_ne_true
    rw [if_neg hnot]
    rcases hfar.isFinite_or_infinity with ⟨hfar', -⟩ | hfar'
    · rw [extended_of_infinity hinfinite] at habove
      exact absurd habove (not_le.2 (extended_lt_top hfar'))
    · exact place_isNaN hinfinite hfar' (hnear.isFinite_or_infinity.imp_left And.left)

/-- **Places by distance** lie in the unit interval, but for points whose distance is infinite. -/
theorem ColorScheme.radialPlaces_eq {points : List Point}
    (hpoints : ∀ p ∈ points, p.isFinite = true) :
    ∃ place : Point → Float, radialPlaces points = points.map place ∧ ∀ p ∈ points,
      if (hypot p.x p.y).isFinite then InUnit (place p) else (place p).isNaN = true := by
  have hunsigned : ∀ d ∈ points.map fun p => hypot p.x p.y, Unsigned d := by
    intro d hd
    obtain ⟨p, hp, rfl⟩ := List.mem_map.1 hd
    have hfinite := Bool.and_eq_true_iff.1 (hpoints p hp)
    exact hypot_unsigned hfinite.1 hfinite.2
  refine ⟨_, List.map_map, fun p hp => ?_⟩
  exact place_cases hunsigned (List.mem_map_of_mem hp)

end CurveArt
