import CurveArt.Curve.Sampling

/-!
# Points that are gone

Points can be missing because a formula failed, or because a transformation carried them beyond all
finite doubles. `settle` applies the failure policy to the latter; `breaks` finds the places where
neighbours in a list of points were no neighbours in the sweep. `settleInPlace?` settles points
whose step numbers stand in a list of their own.
-/

namespace CurveArt.Curve

/-- The positions from which the next step number is not the following one. -/
def breaksFrom (position : Nat) : List Nat → List Nat
  | a :: b :: rest =>
    if b = a + 1 then breaksFrom (position + 1) (b :: rest)
    else position :: breaksFrom (position + 1) (b :: rest)
  | _ => []

/-- The positions of a list of step numbers at which a segment would bridge missing steps. -/
def breaks (steps : List Nat) : List Nat :=
  breaksFrom 0 steps

/-- How many points are not finite. -/
def nonFiniteCount (points : List Stepped) : Nat :=
  points.countP fun p => !p.point.isFinite

/-- Points with the failure policy applied to those that are not finite. -/
def settled (policy : FailurePolicy) (points : List Stepped) : List Stepped :=
  match policy with
  | .drop => points.filter fun p => p.point.isFinite
  | .zero => points.map fun p => ⟨p.step, p.point.finiteOrZero⟩

/-- The settled points, with a record if any of them was not finite. -/
def settle (policy : FailurePolicy) (points : List Stepped) : Logged (List Stepped) :=
  let affected := nonFiniteCount points
  ⟨settled policy points, if affected = 0 then [] else [.leftFiniteRange affected]⟩

/-! ### Step numbers in a list of their own

The numbers are then matched to the points by position, and the two lists may differ in length. What
stays is moved to the front of both.
-/

/-- Two lists while points are moved to the front: the first `kept` places of both are taken. -/
structure Compaction where
  steps : Array Nat
  points : Array Point
  kept : Nat

/-- Looks at the point at a place. A finite one goes to the first place that is not taken, together
with its step number, which it has to have. -/
def Compaction.visit? (c : Compaction) (place : Nat) : Option Compaction :=
  match c.points[place]? with
  | none => none
  | some p =>
    if p.isFinite then
      match c.steps[place]? with
      | none => none
      | some step =>
        some ⟨c.steps.setIfInBounds c.kept step, c.points.setIfInBounds c.kept p, c.kept + 1⟩
    else some c

/-- Both lists without the points that are not finite, unless a finite one has no step number.
Numbers without a point are left out. -/
def compacted? (steps : List Nat) (points : List Point) : Option (List Nat × List Point) :=
  let start : Compaction := ⟨steps.toArray, points.toArray, 0⟩
  ((List.range points.length).foldlM Compaction.visit? start).map fun c =>
    (c.steps.toList.take c.kept, c.points.toList.take c.kept)

/-- Settled points with their step numbers, and how many points were not finite. -/
structure Settlement where
  steps : List Nat
  points : List Point
  affected : Nat
  deriving Repr, Inhabited

/-- Settles points in place, with a record if any of them was not finite. Only where points are
dropped do the numbers have to reach as far as the points that stay. -/
def settleInPlace? (policy : FailurePolicy) (steps : List Nat) (points : List Point) :
    Option (Logged Settlement) :=
  let affected := points.countP fun p => !p.isFinite
  if affected = 0 then some ⟨⟨steps, points, 0⟩, []⟩
  else
    let settled := match policy with
      | .drop => compacted? steps points
      | .zero => some (steps, points.map Point.finiteOrZero)
    settled.map fun (steps, points) => ⟨⟨steps, points, affected⟩, [.leftFiniteRange affected]⟩

/-- The two lists that settling in place leaves. -/
def settleApart? (policy : FailurePolicy) (steps : List Nat) (points : List Point) :
    Option (Logged (List Nat × List Point)) :=
  (settleInPlace? policy steps points).map fun s => ⟨(s.value.steps, s.value.points), s.events⟩

end CurveArt.Curve
