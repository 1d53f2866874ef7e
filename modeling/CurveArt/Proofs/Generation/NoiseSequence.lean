import CurveArt.Proofs.Curve.NoiseRange
import CurveArt.Proofs.Generation.Run
import CurveArt.Proofs.Random.Candidates

/-!
# Noise is drawn apart from the points

Jitter runs through the points and draws two numbers for each of them, and a draw may take any
number of words. What is drawn depends on the stream and the width alone nevertheless: there is one
sequence of noise, `noiseAt`, and jitter adds the values `2 * k` and `2 * k + 1` of it to point `k`,
whatever the points are and however many there are.

A draw rejects candidates, and how many is bounded. The sequence is that of draws that are never
given up; `jitteredTrying` is jitter with the bound as a parameter, and either adds this sequence or
runs into its bound. Widths that are not tiny have no candidates to reject.

Main results:

* `jitterBy_of_allEndWithin`, `jitterBy_of_rejected`: jitter adds the sequence or is exhausted.
* `jitterBy_append`: one list of points after another.
* `jitter_aligned`: both for every width, and what they mean for drawings.
-/

namespace CurveArt.Transform

open Binary64 Random.Stream Curve Generation

/-! ## Jitter with any way of drawing -/

section AnyDraw

variable (draw : Random.Stream → Except Random.DrawError Float × Random.Stream)

/-- Two numbers, for the coordinates of one point. -/
def drawPair (s : Random.Stream) : Except Random.DrawError (Point × Random.Stream) :=
  match draw s with
  | (.error e, _) => .error e
  | (.ok dx, s) =>
    match draw s with
    | (.error e, _) => .error e
    | (.ok dy, s) => .ok (⟨dx, dy⟩, s)

/-- Jitter by numbers that are drawn in the given way. -/
def jitterBy : List Point → Random.Stream → Except Random.DrawError (List Point × Random.Stream)
  | [], s => .ok ([], s)
  | p :: rest, s => (drawPair draw s).bind fun d =>
    (jitterBy rest d.2).map fun moved => (p.shifted (some d.1) :: moved.1, moved.2)

/-- Points behind others get what is drawn from the stream that those leave. -/
theorem jitterBy_append (p q : List Point) (s : Random.Stream) :
    jitterBy draw (p ++ q) s = (jitterBy draw p s).bind fun first =>
      (jitterBy draw q first.2).map fun second => (first.1 ++ second.1, second.2) := by
  induction p generalizing s with
  | nil =>
    show jitterBy draw q s = (jitterBy draw q s).map fun second => ([] ++ second.1, second.2)
    cases jitterBy draw q s <;> rfl
  | cons point p ih =>
    rw [List.cons_append, jitterBy, jitterBy]
    cases drawPair draw s with
    | error e => rfl
    | ok d =>
      simp only [Except.bind]
      rw [ih]
      cases jitterBy draw p d.2 with
      | error e => rfl
      | ok first =>
        show ((jitterBy draw q first.2).map _).map _ = (jitterBy draw q first.2).map _
        cases jitterBy draw q first.2 <;> rfl

theorem jitterBy_length {points moved : List Point} {s left : Random.Stream}
    (h : jitterBy draw points s = .ok (moved, left)) : moved.length = points.length := by
  induction points generalizing s moved left with
  | nil =>
    obtain ⟨rfl, -⟩ := Prod.mk.inj (Except.ok.inj h)
    rfl
  | cons p points ih =>
    rw [jitterBy] at h
    cases hpair : drawPair draw s with
    | error e =>
      rw [hpair] at h
      cases h
    | ok d =>
      rw [hpair, Except.bind] at h
      cases hrest : jitterBy draw points d.2 with
      | error e =>
        rw [hrest] at h
        cases h
      | ok rest =>
        rw [hrest] at h
        obtain ⟨rfl, -⟩ := Prod.mk.inj (Except.ok.inj h)
        rw [List.length_cons, List.length_cons, ih hrest]

end AnyDraw

/-- The points that have their noise already stay in front of the others. -/
theorem jitterWith_eq_jitterBy (half : Float) (done points : List Point) (s : Random.Stream) :
    jitterWith half done points s =
      (jitterBy (between (-half) half) points s).map fun moved =>
        (done.reverse ++ moved.1, moved.2) := by
  induction points generalizing done s with
  | nil => simp [jitterWith, jitterBy, Except.map]
  | cons p points ih =>
    rw [jitterWith, jitterBy, drawPair]
    -- both sides draw the same two numbers, and fail with either of them
    rcases s.between (-half) half with ⟨e | dx, s⟩
    · rfl
    · dsimp only
      rcases s.between (-half) half with ⟨e | dy, s⟩
      · rfl
      · simp only [Except.bind]
        rw [ih]
        cases jitterBy (between (-half) half) points s with
        | error e => rfl
        | ok moved => simp [Except.map, Point.shifted]

/-- Jitter whose draws try a given number of candidates each. -/
def jitteredTrying (tries : Nat) (width : Float) (points : List Point) (s : Random.Stream) :
    Except Random.DrawError (List Point × Random.Stream) :=
  if width ≤ 0.0 then .ok (points, s)
  else jitterBy (betweenTrying tries (-(width / 2.0)) (width / 2.0)) points s

theorem jittered_eq_jitteredTrying (width : Float) (points : List Point) (s : Random.Stream) :
    jittered width points s = jitteredTrying Random.maxRejections width points s := by
  have hdraw : betweenTrying Random.maxRejections (-(width / 2.0)) (width / 2.0) =
      between (-(width / 2.0)) (width / 2.0) := (funext (between_eq_betweenTrying _ _)).symm
  rw [jittered, jitteredTrying, hdraw, jitterWith_eq_jitterBy]
  congr 1
  cases jitterBy (between (-(width / 2.0)) (width / 2.0)) points s <;> rfl

/-! ## The sequence of noise -/

/-- Points with the values of a sequence added to their coordinates, in the order of these. -/
def displaced (noise : Nat → Float) (points : List Point) : List Point :=
  points.mapIdx fun k p => ⟨p.x + noise (2 * k), p.y + noise (2 * k + 1)⟩

theorem displaced_cons (noise : Nat → Float) (p : Point) (points : List Point) :
    displaced noise (p :: points) =
      p.shifted (some ⟨noise 0, noise 1⟩) :: displaced (fun k => noise (k + 2)) points :=
  List.mapIdx_cons

section Sequence

variable {low high : Float} {tries : Nat} {points : List Point} {s : Random.Stream}
  (hrange : low < high ∧ (high - low).isFinite = true)
include hrange

theorem drawPair_of_endsWithin (h : s.EndsWithin tries low high)
    (h' : (s.behind low high).EndsWithin tries low high) :
    drawPair (betweenTrying tries low high) s =
      .ok (⟨s.drawnAt low high 0, s.drawnAt low high 1⟩, s.afterDraws low high 2) := by
  rw [drawPair, betweenTrying_of_endsWithin hrange h]
  dsimp only
  rw [betweenTrying_of_endsWithin hrange h']
  rfl

theorem drawPair_of_rejected
    (h : ¬(s.EndsWithin tries low high ∧ (s.behind low high).EndsWithin tries low high)) :
    drawPair (betweenTrying tries low high) s = .error .exhausted := by
  rw [drawPair]
  by_cases hfirst : s.EndsWithin tries low high
  · rw [betweenTrying_of_endsWithin hrange hfirst]
    dsimp only
    rw [betweenTrying_of_rejected hrange fun hsecond => h ⟨hfirst, hsecond⟩]
  · rw [betweenTrying_of_rejected hrange hfirst]

/-- Where all draws come to an end, the points get the sequence of what is drawn. -/
theorem jitterBy_of_allEndWithin (h : s.AllEndWithin tries low high (2 * points.length)) :
    jitterBy (betweenTrying tries low high) points s =
      .ok (displaced (s.drawnAt low high) points, s.afterDraws low high (2 * points.length)) := by
  induction points generalizing s with
  | nil => rfl
  | cons p points ih =>
    obtain ⟨hfirst, hrest⟩ := allEndWithin_succ.1 h
    obtain ⟨hsecond, hrest⟩ := allEndWithin_succ.1 hrest
    -- the sequence of the stream behind is this one without its first two values
    have hbehind := ih (s := s.afterDraws low high 2) hrest
    rw [jitterBy, drawPair_of_endsWithin hrange hfirst hsecond, displaced_cons]
    simp only [Except.bind]
    rw [hbehind]
    rfl

/-- Otherwise one of the draws runs into its bound, and jitter with it. -/
theorem jitterBy_of_rejected (h : ¬s.AllEndWithin tries low high (2 * points.length)) :
    jitterBy (betweenTrying tries low high) points s = .error .exhausted := by
  induction points generalizing s with
  | nil => exact absurd (fun k hk => absurd hk (Nat.not_lt_zero k)) h
  | cons p points ih =>
    rw [jitterBy]
    by_cases hpair : s.EndsWithin tries low high ∧ (s.behind low high).EndsWithin tries low high
    · obtain ⟨hfirst, hsecond⟩ := hpair
      have hrest := ih (s := s.afterDraws low high 2) fun hrest =>
        h (allEndWithin_succ.2 ⟨hfirst, allEndWithin_succ.2 ⟨hsecond, hrest⟩⟩)
      rw [drawPair_of_endsWithin hrange hfirst hsecond]
      simp only [Except.bind]
      rw [hrest]
      rfl
    · rw [drawPair_of_rejected hrange hpair]
      rfl

end Sequence

/-! ## Widths -/

variable {width : Float}

/-- Only positive doubles have halves that are positive doubles. -/
theorem pos_of_half (hpos : 0.0 < width / 2.0) (hfinite : (width / 2.0).isFinite = true) :
    width.isFinite = true ∧ 0 < value width := by
  have hhalf : 0 < value (width / 2.0) := (lt_iff_value rfl hfinite).1 hpos
  have hwidth : width.isFinite = true := by
    rw [isFinite_eq, div_eq_packed, unpacked_two] at hfinite
    rw [isFinite_eq]
    cases hwidth : unpacked width with
    | notANumber =>
      rw [hwidth] at hfinite
      cases hfinite
    | infinity sign =>
      rw [hwidth] at hfinite
      cases sign <;> cases hfinite
    | zero sign => rfl
    | finite sign m q h => rfl
  refine ⟨hwidth, not_le.1 fun hle => hhalf.not_ge ?_⟩
  -- half of any other double is rounded to no more than zero
  have hbound : |value width / value 2.0| < overflowBound := by
    rw [value_two, abs_div, abs_two]
    exact (div_le_self (abs_nonneg _) one_le_two).trans_lt (abs_value_lt hwidth)
  have hrounds := rounds_div hwidth rfl (value_two.trans_ne two_ne_zero) hbound
  rw [value_two] at hrounds
  exact hrounds.le (y := 0.0) rfl (div_nonpos_of_nonpos_of_nonneg hle zero_le_two)

theorem halfWidth_of_pos (hpos : 0.0 < width / 2.0) (hfinite : (width / 2.0).isFinite = true) :
    HalfWidth (width / 2.0) := by
  obtain ⟨hwidth, hwidth'⟩ := pos_of_half hpos hfinite
  obtain ⟨m, q, h, hparts, -, -⟩ := unpacked_of_value_pos hwidth hwidth'
  -- the least positive double has no positive half
  have hne : width ≠ leastWidth := by
    rintro rfl
    exact absurd hpos (by decide +kernel)
  obtain ⟨m', q', h', hparts', -, hle⟩ :=
    unpacked_half hparts (parts_of_ne_leastWidth hparts hne)
  exact halfWidth_of_unpacked hparts' hle

/-! ## Jitter of some width -/

/-- What is drawn for jitter of some width. -/
noncomputable def noiseAt (width : Float) (s : Random.Stream) (k : Nat) : Float :=
  s.drawnAt (-(width / 2.0)) (width / 2.0) k

/-- The stream after a number of such draws. -/
noncomputable def afterNoise (width : Float) (n : Nat) (s : Random.Stream) : Random.Stream :=
  s.afterDraws (-(width / 2.0)) (width / 2.0) n

/-- What jitter of one width does: points get one sequence of noise, two values each. -/
structure JitterAligned (width : Float) : Prop where
  /-- Every value that is drawn lies in the range. -/
  range : ∀ (s : Random.Stream) (k : Nat),
    (afterNoise width k s).Ends (-(width / 2.0)) (width / 2.0) →
      -(width / 2.0) ≤ noiseAt width s k ∧ noiseAt width s k < width / 2.0
  /-- Where all draws come to an end, every bound that is large enough gives the points with their
  noise. -/
  added : ∀ (points : List Point) (s : Random.Stream),
    s.AllEnd (-(width / 2.0)) (width / 2.0) (2 * points.length) →
      ∃ bound, ∀ tries ≥ bound, jitteredTrying tries width points s =
        .ok (displaced (noiseAt width s) points, afterNoise width (2 * points.length) s)
  /-- Any bound at all gives this or is run into. -/
  bounded : ∀ (tries : Nat) (points : List Point) (s : Random.Stream),
    jitteredTrying tries width points s =
        .ok (displaced (noiseAt width s) points, afterNoise width (2 * points.length) s) ∨
      jitteredTrying tries width points s = .error .exhausted
  /-- The bound of the program. -/
  running : ∀ (points : List Point) (s : Random.Stream),
    jittered width points s = jitteredTrying Random.maxRejections width points s
  /-- The noise of points behind others is what is drawn from the stream that those leave. -/
  appended : ∀ (tries : Nat) (p q : List Point) (s : Random.Stream),
    jitteredTrying tries width (p ++ q) s = (jitteredTrying tries width p s).bind fun first =>
      (jitteredTrying tries width q first.2).map fun second => (first.1 ++ second.1, second.2)
  /-- No point is lost. -/
  kept : ∀ {tries : Nat} {points moved : List Point} {s left : Random.Stream},
    jitteredTrying tries width points s = .ok (moved, left) → moved.length = points.length
  /-- The noise of a drawing depends on its width and seed, and goes to the points that sampling has
  left, whatever these are. -/
  drawing : ∀ {s : Settings} {drawn : UInt64} {g : Generation}, s.jitter = width →
    (generate s drawn).value = .ok g → ∃ r : Run s (s.seed.getD drawn), g = r.generation ∧
      (along r.noisyAt r.total).map Stepped.step = r.curve.points.map Stepped.step ∧
      (along r.noisyAt r.total).map Stepped.point =
        displaced (noiseAt width (.ofSeed (s.seed.getD drawn) jitterStream))
          (r.curve.points.map Stepped.point)
  /-- Widths that are not tiny never make a draw reject anything: each takes two words. -/
  prompt : 2 ^ (-1021 : Int) ≤ value (width / 2.0) → ∀ (points : List Point) (s : Random.Stream),
    jittered width points s =
      .ok (displaced (noiseAt width s) points, s.skip (4 * points.length))

section Width

variable (hhalf : HalfWidth (width / 2.0)) (hpos : ¬width ≤ 0.0)
include hpos

theorem jitteredTrying_eq (tries : Nat) (points : List Point) (s : Random.Stream) :
    jitteredTrying tries width points s =
      jitterBy (betweenTrying tries (-(width / 2.0)) (width / 2.0)) points s :=
  if_neg hpos

include hhalf

theorem jitteredTrying_of_allEndWithin {tries : Nat} {points : List Point} {s : Random.Stream}
    (h : s.AllEndWithin tries (-(width / 2.0)) (width / 2.0) (2 * points.length)) :
    jitteredTrying tries width points s =
      .ok (displaced (noiseAt width s) points, afterNoise width (2 * points.length) s) :=
  (jitteredTrying_eq hpos tries points s).trans (jitterBy_of_allEndWithin hhalf.range h)

theorem jitteredTrying_cases (tries : Nat) (points : List Point) (s : Random.Stream) :
    jitteredTrying tries width points s =
        .ok (displaced (noiseAt width s) points, afterNoise width (2 * points.length) s) ∨
      jitteredTrying tries width points s = .error .exhausted := by
  by_cases h : s.AllEndWithin tries (-(width / 2.0)) (width / 2.0) (2 * points.length)
  · exact .inl (jitteredTrying_of_allEndWithin hhalf hpos h)
  · exact .inr ((jitteredTrying_eq hpos tries points s).trans
      (jitterBy_of_rejected hhalf.range h))

theorem aligned_of_halfWidth : JitterAligned width where
  range s k hends := ⟨hhalf.neg_le_candidateAt _ _, hends.drawn_lt⟩
  added points s hends :=
    let ⟨bound, hbound⟩ := hends.exists_bound
    ⟨bound, fun tries htries => jitteredTrying_of_allEndWithin hhalf hpos (hbound tries htries)⟩
  bounded := jitteredTrying_cases hhalf hpos
  running := jittered_eq_jitteredTrying width
  appended tries p q s := by
    simp only [jitteredTrying_eq hpos]
    exact jitterBy_append _ p q s
  kept h := jitterBy_length _ ((jitteredTrying_eq hpos _ _ _).symm.trans h)
  drawing := by
    intro s drawn g hwidth h
    subst hwidth
    obtain ⟨r, -, rfl⟩ := exists_run h
    refine ⟨r, rfl, r.noisy_steps.symm, ?_⟩
    have hjitter := r.jittered_curve
    rw [jittered_eq_jitteredTrying] at hjitter
    rcases jitteredTrying_cases hhalf hpos Random.maxRejections (r.curve.points.map Stepped.point)
      (.ofSeed (s.seed.getD drawn) jitterStream) with hmoved | hmoved
    · exact (Prod.mk.inj (Except.ok.inj (hjitter.symm.trans hmoved))).1
    · cases hjitter.symm.trans hmoved
  prompt hlarge points s := by
    have hprompt : ∀ s : Random.Stream, s.EndsWithin 1 (-(width / 2.0)) (width / 2.0) :=
      fun s => ⟨0, Nat.one_pos, hhalf.candidateAt_lt s 0 hlarge⟩
    have hall := allEndWithin_of_prompt hprompt (show 1 ≤ Random.maxRejections by decide)
      (2 * points.length) s
    rw [jittered_eq_jitteredTrying, jitteredTrying_of_allEndWithin hhalf hpos hall, afterNoise,
      afterDraws_of_prompt hprompt, ← Nat.mul_assoc]

end Width

/-- **Jitter adds one sequence of noise**, two values to each point, and nothing at all for widths
that are not positive. -/
theorem jitter_aligned (width : Float) :
    (0.0 < width / 2.0 → (width / 2.0).isFinite = true → JitterAligned width) ∧
      (width ≤ 0.0 → ∀ (points : List Point) (s : Random.Stream),
        jittered width points s = .ok (points, s)) := by
  refine ⟨fun hpos hfinite => ?_, fun hnone points s => if_pos hnone⟩
  obtain ⟨hwidth, hwidth'⟩ := pos_of_half hpos hfinite
  exact aligned_of_halfWidth (halfWidth_of_pos hpos hfinite)
    fun hnone => hwidth'.not_ge ((le_iff_value hwidth rfl).1 hnone)

/-- Noise of width one needs no assumption about the stream. -/
theorem jitter_aligned_unit :
    (0.0 < 1.0 / 2.0 ∧ (1.0 / 2.0 : Float).isFinite = true ∧ JitterAligned 1.0 ∧
      ∀ (points : List Point) (s : Random.Stream), jittered 1.0 points s =
        .ok (displaced (noiseAt 1.0 s) points, s.skip (4 * points.length))) ∧
      ((-1.0 : Float) ≤ 0.0 ∧ ∀ (points : List Point) (s : Random.Stream),
        jittered (-1.0) points s = .ok (points, s)) := by
  have hpos : 0.0 < (1.0 / 2.0 : Float) := by decide +kernel
  have hfinite : (1.0 / 2.0 : Float).isFinite = true := by decide +kernel
  have hnone : (-1.0 : Float) ≤ 0.0 := by decide +kernel
  have haligned := (jitter_aligned 1.0).1 hpos hfinite
  have hvalue : value (1.0 / 2.0) = 2 ^ (-1 : Int) :=
    value_power (show unpacked (1.0 / 2.0) = .finite .positive (2 ^ 52) (-53) (by decide) from rfl)
  refine ⟨⟨hpos, hfinite, haligned, haligned.prompt ?_⟩, hnone, (jitter_aligned (-1.0)).2 hnone⟩
  rw [hvalue]
  exact zpow_le_zpow_right₀ one_le_two (by decide)

end CurveArt.Transform
