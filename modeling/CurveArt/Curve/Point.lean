/-!
# Points
-/

namespace CurveArt

structure Point where
  x : Float
  y : Float
  deriving Repr, Inhabited

namespace Point

def isFinite (p : Point) : Bool :=
  p.x.isFinite && p.y.isFinite

/-- The coordinate, or zero where it is not finite. -/
def coordinateOrZero (x : Float) : Float :=
  if x.isFinite then x else 0.0

/-- The point with zero for every coordinate that is not finite. -/
def finiteOrZero (p : Point) : Point :=
  ⟨coordinateOrZero p.x, coordinateOrZero p.y⟩

/-- The reflection across the horizontal axis. -/
def reflected (p : Point) : Point :=
  ⟨p.x, -p.y⟩

theorem coordinateOrZero_isFinite (x : Float) : (coordinateOrZero x).isFinite = true := by
  rw [coordinateOrZero]
  split
  · next h => exact h
  · decide

theorem finiteOrZero_isFinite (p : Point) : p.finiteOrZero.isFinite = true := by
  rw [isFinite, finiteOrZero, coordinateOrZero_isFinite, coordinateOrZero_isFinite]
  rfl

theorem finiteOrZero_of_isFinite {p : Point} (h : p.isFinite = true) : p.finiteOrZero = p := by
  simp only [isFinite, Bool.and_eq_true] at h
  simp [finiteOrZero, coordinateOrZero, h.1, h.2]

end Point

end CurveArt
