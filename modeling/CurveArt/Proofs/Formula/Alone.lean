import CurveArt.Formula.Basic

/-!
# A formula called alone

A formula that is called at one input after the other gives a list of values and goes on with the
stream that its own calls have left. Every value that it gives is finite, because the last thing
that evaluation does is to refuse all others.

Main results:

* `call_isFinite`: a call gives no value that is not finite.
* `alone_length`, `alone_isFinite`: the same of a list of inputs, with one value for each of them.
-/

namespace CurveArt

namespace Term

variable {n : Nat} {inputs : Fin n → Float} {x : Float}

/-- What is neither a number of no kind nor infinite is finite. -/
theorem checkFinite_isFinite {value : Float} (h : checkFinite x = .ok value) :
    value.isFinite = true := by
  rw [checkFinite] at h
  split at h
  · cases h
  · next hnan =>
    split at h
    · cases h
    · next hinf =>
      obtain rfl := Except.ok.inj h
      -- the three questions split the same four kinds of unpacked numbers
      unfold Float.isFinite Float.Model.isFinite
      unfold Float.isNaN Float.Model.isNaN at hnan
      unfold Float.isInf Float.Model.isInf at hinf
      cases hkind : x.toModel.unpack with
      | notANumber => exact absurd (by rw [hkind]; rfl) hnan
      | infinity sign => exact absurd (by rw [hkind]; rfl) hinf
      | zero sign => rfl
      | finite sign mantissa exponent positive => rfl

theorem bind_checkFinite_isFinite {r : Except EvalError Float} (h : r.bind checkFinite = .ok x) :
    x.isFinite = true := by
  cases r with
  | error cause => cases h
  | ok value => exact checkFinite_isFinite h

/-- Whatever a term stands for, its value has been checked last. -/
theorem eval_isFinite {t : Term n} {s : Random.Stream} (h : (t.eval inputs s).1 = .ok x) :
    x.isFinite = true := by
  cases t with
  | constant | «variable» | random => exact checkFinite_isFinite h
  | unknownName | unknownFunction | wrongArity => cases h
  | apply f argument =>
    rw [eval] at h
    split at h
    · cases h
    · exact bind_checkFinite_isFinite h
  | negate operand =>
    rw [eval] at h
    split at h
    · cases h
    · exact checkFinite_isFinite h
  | binary op left right =>
    rw [eval] at h
    split at h
    · cases h
    · split at h
      · cases h
      · exact bind_checkFinite_isFinite h

end Term

namespace Formula

theorem call_isFinite {f : Formula} {inputs : List Float} {x : Float}
    (h : (f.call inputs).1 = .ok x) : x.isFinite = true := by
  rw [call] at h
  split at h
  · exact Term.eval_isFinite h
  · cases h

/-- The values of a formula at one input after the other, and the formula that the last call
leaves. -/
def alone (f : Formula) : List (List Float) → List (Except EvalError Float) × Formula
  | [] => ([], f)
  | input :: inputs =>
    let (value, left) := f.call input
    let (values, left) := left.alone inputs
    (value :: values, left)

theorem alone_cons (f : Formula) (input : List Float) (inputs : List (List Float)) :
    f.alone (input :: inputs) =
      ((f.call input).1 :: ((f.call input).2.alone inputs).1, ((f.call input).2.alone inputs).2) :=
  rfl

theorem alone_length (f : Formula) (inputs : List (List Float)) :
    (f.alone inputs).1.length = inputs.length := by
  induction inputs generalizing f with
  | nil => rfl
  | cons input inputs ih => rw [alone_cons, List.length_cons, List.length_cons, ih]

theorem alone_isFinite {f : Formula} {inputs : List (List Float)} {x : Float}
    (h : .ok x ∈ (f.alone inputs).1) : x.isFinite = true := by
  induction inputs generalizing f with
  | nil => cases h
  | cons input inputs ih =>
    rw [alone_cons] at h
    rcases List.mem_cons.1 h with hfirst | hrest
    · exact call_isFinite hfirst.symm
    · exact ih hrest

end Formula

end CurveArt
