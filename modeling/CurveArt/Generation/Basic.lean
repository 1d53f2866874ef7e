import CurveArt.Curve.Breaks
import CurveArt.Curve.Transform
import CurveArt.Drawing.Request

/-!
# Generating a drawing

The whole way from settings to a request: check the settings, compile the two formulas, sample them,
transform the points, settle those that left the finite range, and colour what is left. Each
consumer of randomness has a stream of its own, so that none disturbs another.
-/

namespace CurveArt

structure Generation where
  request : Request
  /-- The seed of the run; with it the run can be repeated. -/
  seed : UInt64
  /-- How many steps were sampled. -/
  total : Nat
  /-- At how many of them a formula failed. -/
  failed : Nat
  deriving Repr, Inhabited

namespace Generation

/-! ## The streams of a run -/

def firstStream : UInt64 := 1

def secondStream : UInt64 := 2

def jitterStream : UInt64 := 3

def colorStream : UInt64 := 4

/-! ## Stages -/

/-- Compiles the two formulas of the settings. -/
def formulas (s : Settings) (seed : UInt64) : Except GenerationError (Formula × Formula) :=
  match Formula.compile s.f1 s.vars (.ofSeed seed firstStream) with
  | .error cause => .error (.compile s.slots.1 cause)
  | .ok first =>
    match Formula.compile s.f2 s.vars (.ofSeed seed secondStream) with
    | .error cause => .error (.compile s.slots.2 cause)
    | .ok second => .ok (first, second)

/-- Samples two formulas as the settings say. -/
def sampled (s : Settings) (first second : Formula) : Logged (Except GenerationError Curve) :=
  let policy := s.style.failurePolicy
  match s.style, s.sampling with
  | .polar, _ => Curve.polar first second s.sampleCount policy
  | _, .sweep => Curve.sweep first second s.domain s.sampleCount policy
  | _, .grid => Curve.grid first second s.domain s.sampleCount policy

def transform (s : Settings) : Transform :=
  ⟨s.jitter, s.mirror, s.rotationDegrees⟩

/-- The points of a curve after the transformation. The reflected half goes on with the numbering of
the steps. -/
def transformed (s : Settings) (seed : UInt64) (curve : Curve) :
    Except GenerationError (List Stepped) :=
  let steps := curve.points.map Stepped.step
  let steps := if s.mirror then steps ++ steps.map (· + curve.total) else steps
  match (transform s).apply (curve.points.map Stepped.point) (.ofSeed seed jitterStream) with
  | .error cause => .error (.noise cause)
  | .ok (points, _) => .ok (List.zipWith Stepped.mk steps points)

/-- The request for settled points. -/
def assembled (s : Settings) (seed : UInt64) (points : List Stepped) : Request :=
  let scheme :=
    ColorScheme.ofMode s.colorMode s.color s.color1 s.color2 (.ofSeed seed colorStream)
  let places := points.map Stepped.point
  Request.assemble places (scheme.colors places s.alpha)
    (Curve.breaks (points.map Stepped.step)) s

/-- What is made of a sampled curve. -/
def ofCurve (s : Settings) (seed : UInt64) (first second : Formula) (curve : Curve) :
    Logged (Except GenerationError Generation) :=
  match transformed s seed curve with
  | .error fault => ⟨.error fault, []⟩
  | .ok moved =>
    let points := Curve.settle s.style.failurePolicy moved
    if points.value.isEmpty then
      ⟨.error (.allSamplesFailed first.source second.source), points.events⟩
    else
      let request := assembled s seed points.value
      ⟨.ok ⟨request, seed, curve.total, curve.failed⟩,
        points.events ++ [.assembled request.points.length request.colors.length]⟩

/-- Generates the drawing of the settings with the given seed. -/
def withSeed (s : Settings) (seed : UInt64) : Logged (Except GenerationError Generation) :=
  match s.validate with
  | .error fault => ⟨.error fault, []⟩
  | .ok () =>
    let begun := [Event.generating s.style seed]
    match formulas s seed with
    | .error fault => ⟨.error fault, begun⟩
    | .ok (first, second) =>
      let curve := sampled s first second
      match curve.value with
      | .error fault => ⟨.error fault, begun ++ curve.events⟩
      | .ok points =>
        let generation := ofCurve s seed first second points
        ⟨generation.value, begun ++ curve.events ++ generation.events⟩

/-- Generates the drawing of the settings. The seed `drawn` serves where they have none. -/
def generate (s : Settings) (drawn : UInt64) : Logged (Except GenerationError Generation) :=
  withSeed s (s.seed.getD drawn)

end Generation

end CurveArt
