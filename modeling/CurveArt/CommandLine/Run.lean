import CurveArt.CommandLine.Command
import CurveArt.CommandLine.Outcome
import CurveArt.Drawing.Export
import CurveArt.Formula.Basic
import CurveArt.Generation.Basic
import CurveArt.Settings.Stored
import CurveArt.Settings.Summary

/-!
# Running commands

A command meets the outside in three places: it reads stored settings, writes files, and draws a
seed where none is given. `Workspace` holds these three in any monad, and everything else is a
function of the command.
-/

namespace CurveArt

/-- The content of a file. -/
inductive Document where
  | text (text : String)
  /-- A raster picture of a figure at a resolution, with its width and height in pixels. -/
  | raster (figure : Figure) (dpi width height : Nat)
  deriving Repr, Inhabited

/-- How commands meet the outside. -/
structure Workspace (m : Type → Type) where
  /-- The text of a file, if it can be read. -/
  read : String → m (Option String)
  /-- Writes a file and says whether that was possible. -/
  write : String → Document → m Bool
  /-- Draws a seed from the range of seeds. -/
  drawSeed : m UInt64

namespace Command

/-! ## Evaluating -/

/-- What an evaluation prints: the value, or why there is none. -/
def evaluated : Except EvalError Float → String
  | .ok value => plainText value ++ "\n"
  | .error cause => "failed: " ++ cause.message ++ "\n"

/-- Evaluates an expression at one point. That the expression has no value there is no failure. -/
def runEval (expression : String) (vars : List String) (inputs : List Float)
    (seed : UInt64) : Outcome :=
  if vars.length ≠ inputs.length then
    .failed (.counts vars.length inputs.length) []
  else
    match Formula.compile expression vars (.ofSeed seed 0) with
    | .error cause => .failed (.compile cause) []
    | .ok formula => .done (evaluated (formula.call inputs).1) []

/-! ## Listing presets -/

/-- A line of the list of presets, with the formulas one below the other. -/
def presetLine (p : Preset) : String :=
  "  " ++ Text.padded 8 p.name ++ " " ++ p.formula

/-- The whole vocabulary of formulas, and formulas made of it. -/
def presetLines : List String :=
  ["functions: " ++ ", ".intercalate (Builtin.all.map Builtin.name),
    "constants: " ++ ", ".intercalate (constants.map Prod.fst), "",
    "presets (grid sampling over x and y):"] ++ Preset.all.map presetLine ++ ["", "gallery:"] ++
    gallery.map ("  " ++ ·)

/-! ## Showing settings -/

variable {m : Type → Type} [Monad m]

/-- The settings of a source. -/
def load (w : Workspace m) (source : SettingsSource) : m (Except Failure Settings) := do
  match source.stored with
  | none => return .ok (source.overrides.apply .default)
  | some path =>
    match ← w.read path with
    | none => return .error (.loading path)
    | some text =>
      match Settings.ofStored text with
      | .error _ => return .error (.loading path)
      | .ok s => return .ok (source.overrides.apply s)

/-- Shows settings once their ranges are checked. -/
def shown (s : Settings) (stored : Bool) : Outcome :=
  match s.validate with
  | .error cause => .failed (.generation cause) []
  | .ok () => .done (if stored then s.storedLines ++ "\n" else s.summary) []

/-! ## Rendering -/

/-- The file of a picture. -/
def documentOf (f : Figure) (dpi : Nat) : Picture → Document
  | .vector lines => .text (Text.ofLines lines)
  | .raster width height => .raster f dpi width height

/-- Warns of samples that have failed. -/
def failureEvents (g : Generation) : List Event :=
  if g.failed = 0 then [] else [.samplesFailed g.failed g.total]

/-- The text with the seed, by which the picture can be made again. -/
def seedText (seed : UInt64) : String :=
  "Seed value to regenerate this image: " ++ toString seed ++ "\n"

/-- Writes the summary of settings where one is asked for. -/
def writeSummary (w : Workspace m) (path : Option String) (s : Settings) :
    m (Except Failure Unit) := do
  match path with
  | none => return .ok ()
  | some path => return if ← w.write path (.text s.summary) then .ok () else .error (.writing path)

/-- Writes the picture of a generated drawing, then the summary of its settings with the seed of the
run. A picture that is written stays, whatever happens afterwards. -/
def writeDrawing (w : Workspace m) (s : Settings) (target : Target) (g : Generation)
    (events : List Event) : m Outcome := do
  let figure := Figure.ofRequest g.request s.figureSize
  let format := target.pictureFormat
  match figure.exported format target.dpi with
  | .error cause => return .failed (.render cause) events
  | .ok ⟨picture, exportEvents⟩ =>
    let events := events ++ exportEvents
    if ← w.write target.output (documentOf figure target.dpi picture) then
      let events := events ++ [.wrote target.output format picture.bytes]
      match ← writeSummary w target.settingsOut { s with seed := some g.seed } with
      | .error failure => return .failed failure events
      | .ok () => return .done (seedText g.seed) events
    else return .failed (.writing target.output) events

/-- Makes a picture of settings, drawing a seed where they have none. -/
def runRender (w : Workspace m) (s : Settings) (target : Target) : m Outcome := do
  let (seed, missing) ← match s.seed with
    | some seed => pure (seed, [])
    | none => do pure (← w.drawSeed, [Event.seedMissing])
  let generation := Generation.generate s seed
  let events := missing ++ generation.events
  match generation.value with
  | .error cause => return .failed (.generation cause) events
  | .ok g => writeDrawing w s target g (events ++ failureEvents g)

/-! ## Commands -/

/-- Runs a command. -/
def run (w : Workspace m) : Command → m Outcome
  | .presets => return .done (Text.ofLines presetLines) []
  | .eval expression vars inputs seed => return runEval expression vars inputs seed
  | .settings source stored => do
    match ← load w source with
    | .error failure => return .failed failure []
    | .ok s => return shown s stored
  | .render source target => do
    match ← load w source with
    | .error failure => return .failed failure []
    | .ok s => runRender w s target

/-! ## Command lines -/

/-- The name and the version of the program. -/
def versionText : String :=
  programName ++ " 0.1.0\n"

/-- The list of all commands. -/
def helpText : String :=
  Text.ofLines (["Usage: " ++ programName ++ " <COMMAND>", "", "Commands:"] ++
    Name.all.map fun name =>
      "  " ++ Text.padded 10 name.text ++ name.purpose)

/-- What is done instead of a command. -/
def stopped : Stop → Outcome
  | .misuse => .failed .misuse []
  | .help => .done helpText []
  | .version => .done versionText []

/-- Runs a command line. -/
def runWords (w : Workspace m) (words : List String) : m Outcome :=
  match ofWords words with
  | .error stop => return stopped stop
  | .ok command => run w command

end Command

end CurveArt
