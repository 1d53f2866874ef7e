import CurveArt.Drawing.Figure
import CurveArt.Log

/-!
# Outcomes of a command

What a command prints and records, and how it ends.
-/

namespace CurveArt

/-- Why a command fails. -/
inductive Failure where
  /-- The words of the command line do not fit together. -/
  | misuse
  /-- The settings at the path cannot be read. -/
  | loading (path : String)
  | writing (path : String)
  /-- An evaluation has not as many values as variables. -/
  | counts (vars inputs : Nat)
  | compile (cause : CompileError)
  | generation (cause : GenerationError)
  | render (cause : RenderError)
  deriving Repr, Inhabited

namespace Failure

def message : Failure → String
  | .misuse => "the command line is not understood"
  | .loading path => "loading " ++ path
  | .writing path => "writing " ++ path
  | .counts vars inputs =>
    toString vars ++ " variable(s) but " ++ toString inputs ++ " value(s)"
  | .compile cause => cause.message
  | .generation cause => cause.message
  | .render cause => cause.message

/-- A misuse is told apart from a command that fails, and both from noise that cannot be drawn,
which ends a run where it stands. -/
def exitCode : Failure → UInt32
  | .misuse => 2
  | .generation (.noise _) => 101
  | _ => 1

end Failure

/-- The end of a run. -/
structure Outcome where
  /-- The text that the command prints. -/
  output : String
  /-- What happened during the run, in order. -/
  events : List Event
  failure : Option Failure
  deriving Repr, Inhabited

namespace Outcome

/-- A command that has come to its end. -/
def done (output : String) (events : List Event) : Outcome :=
  ⟨output, events, none⟩

/-- A command that has failed; nothing is printed. -/
def failed (failure : Failure) (events : List Event) : Outcome :=
  ⟨"", events, some failure⟩

def exitCode (o : Outcome) : UInt32 :=
  match o.failure with
  | none => 0
  | some failure => failure.exitCode

/-- The records that are shown to the user. -/
def shownEvents (o : Outcome) : List Event :=
  o.events.filter fun e => e.level = .warn ∨ e.level = .info

end Outcome

end CurveArt
