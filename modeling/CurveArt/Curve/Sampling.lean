import CurveArt.Curve.Linspace
import CurveArt.Formula.Basic
import CurveArt.Log
import CurveArt.Settings.Basic

/-!
# Sampling two formulas

A sweep evaluates two formulas at the same inputs, step by step. A point of the curve keeps the
number of the step that it comes from, so that later stages can tell which neighbours were
neighbours in the sweep. What becomes of a step at which a formula fails is decided by the failure
policy for the point as a whole.
-/

namespace CurveArt

/-- A point with the number of the sweep step that it comes from. -/
structure Stepped where
  step : Nat
  point : Point
  deriving Repr, Inhabited

/-- The points of one sweep, in its order. -/
structure Curve where
  points : List Stepped
  /-- How many steps the sweep had. -/
  total : Nat
  /-- At how many of them a formula failed. -/
  failed : Nat
  deriving Repr, Inhabited

namespace Curve

/-- What two formulas gave at one step. -/
structure Outcome where
  inputs : List Float
  first : Except EvalError Float
  second : Except EvalError Float

namespace Outcome

def succeeded (o : Outcome) : Bool :=
  match o.first, o.second with
  | .ok _, .ok _ => true
  | _, _ => false

/-- The value, or zero where there is none. -/
def orZero : Except EvalError Float → Float
  | .ok value => value
  | .error _ => 0.0

/-- The two coordinates under a policy, unless the step is left out. -/
def coordinates? (policy : FailurePolicy) (o : Outcome) : Option (Float × Float) :=
  match policy with
  | .drop =>
    match o.first, o.second with
    | .ok a, .ok b => some (a, b)
    | _, _ => none
  | .zero => some (orZero o.first, orZero o.second)

/-- The record of a formula that failed. -/
def failure (source : String) (inputs : List Float) : Except EvalError Float → List Event
  | .ok _ => []
  | .error cause => [.evaluationFailed source inputs cause]

/-- The records of a step. -/
def events (source source' : String) (o : Outcome) : List Event :=
  failure source o.inputs o.first ++ failure source' o.inputs o.second

end Outcome

/-- Two formulas in the middle of a sweep, and the outcomes so far, the last one first. -/
structure Sweep where
  first : Formula
  second : Formula
  reversed : List Outcome

/-- One more step: the first formula is called before the second. A call comes to finite values only,
so these are taken without another look at them (`Sweep.checked_eq_next`). -/
def Sweep.next (s : Sweep) (inputs : List Float) : Sweep :=
  let (a, first) := s.first.call inputs
  let (b, second) := s.second.call inputs
  ⟨first, second, ⟨inputs, a, b⟩ :: s.reversed⟩

/-- The sweep over all inputs. -/
def Sweep.run (first second : Formula) (inputs : List (List Float)) : Sweep :=
  inputs.foldl Sweep.next ⟨first, second, []⟩

/-- The outcomes of a sweep in order. -/
def outcomes (first second : Formula) (inputs : List (List Float)) : List Outcome :=
  (Sweep.run first second inputs).reversed.reverse

/-- The curve of a list of outcomes. -/
def ofOutcomes (policy : FailurePolicy) (place : Float → Float → Point) (outcomes : List Outcome) :
    Curve where
  points := outcomes.zipIdx.filterMap fun (o, step) =>
    (o.coordinates? policy).map fun (a, b) => ⟨step, place a b⟩
  total := outcomes.length
  failed := outcomes.countP fun o => !o.succeeded

/-- Samples two formulas at the inputs and places every pair of values as a point. A curve without
any point is an error. -/
def sample (first second : Formula) (inputs : List (List Float)) (policy : FailurePolicy)
    (place : Float → Float → Point) : Logged (Except GenerationError Curve) :=
  let outcomes := outcomes first second inputs
  let curve := ofOutcomes policy place outcomes
  let events := outcomes.flatMap (Outcome.events first.source second.source) ++
    [.sampled curve.points.length curve.total curve.failed first.source second.source]
  if curve.points.isEmpty then
    ⟨.error (.allSamplesFailed first.source second.source), events⟩
  else if curve.failed = curve.total then ⟨.ok curve, events ++ [.allDefaulted]⟩
  else ⟨.ok curve, events⟩

/-- A point from its two coordinates. -/
def placeCartesian (a b : Float) : Point :=
  ⟨a, b⟩

/-- A point from its radius and angle. -/
def placePolar (r θ : Float) : Point :=
  ⟨r * θ.cos, r * θ.sin⟩

/-- The fault of a sample count or a domain that a sweep cannot use. -/
def inputFault? (n : Nat) (domain : Option (Float × Float)) : Option GenerationError :=
  if n < minSampleCount then some (.sampleCount n)
  else
    match domain with
    | none => none
    | some (lo, hi) => if Settings.validDomain (lo, hi) then none else some (.domain lo hi)

/-- One variable runs over the domain, and the two formulas are the coordinates. -/
def sweep (first second : Formula) (domain : Float × Float) (n : Nat) (policy : FailurePolicy) :
    Logged (Except GenerationError Curve) :=
  match inputFault? n (some domain) with
  | some fault => ⟨.error fault, []⟩
  | none =>
    sample first second ((linspace domain.1 domain.2 n).map fun x => [x]) policy placeCartesian

/-- Two variables run over the domain, row by row. -/
def grid (first second : Formula) (domain : Float × Float) (n : Nat) (policy : FailurePolicy) :
    Logged (Except GenerationError Curve) :=
  match inputFault? n (some domain) with
  | some fault => ⟨.error fault, []⟩
  | none => sample first second (gridInputs domain.1 domain.2 n) policy placeCartesian

/-- One variable runs over a full turn, and the two formulas are radius and angle. -/
def polar (radius angle : Formula) (n : Nat) (policy : FailurePolicy) :
    Logged (Except GenerationError Curve) :=
  match inputFault? n none with
  | some fault => ⟨.error fault, []⟩
  | none => sample radius angle (turnInputs n) policy placePolar

end Curve

end CurveArt
