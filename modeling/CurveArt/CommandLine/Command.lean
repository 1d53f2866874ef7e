import CurveArt.CommandLine.Overrides

/-!
# Commands

The first word of a command line is the name of a command; each command has flags and operands of
its own. `Command.ofWords` reads a whole command line.
-/

namespace CurveArt

/-- Where a command takes its settings from. -/
structure SettingsSource where
  /-- The path of stored settings; the default settings hold where there is none. -/
  stored : Option String
  overrides : Overrides
  deriving Repr, Inhabited

/-- What becomes of a drawing. -/
structure Target where
  /-- The path of the picture. -/
  output : String
  /-- The format, unless it is left to the path. -/
  format : Option ExportFormat
  dpi : Nat
  /-- The path for a summary of the settings. -/
  settingsOut : Option String
  deriving Repr, Inhabited

/-- The format of the picture: the one that is given, else the one that the extension of the path
names, else a raster picture. -/
def Target.pictureFormat (t : Target) : ExportFormat :=
  (t.format.or (ExportFormat.ofPath? t.output)).getD .png

/-- What a command line asks for. -/
inductive Command where
  /-- Makes a picture and writes it. -/
  | render (source : SettingsSource) (target : Target)
  /-- Shows settings, as a summary or in the form in which they are stored. -/
  | settings (source : SettingsSource) (stored : Bool)
  /-- Evaluates an expression at one point. -/
  | eval (expression : String) (vars : List String) (inputs : List Float) (seed : UInt64)
  /-- Lists what formulas can be made of. -/
  | presets
  deriving Repr, Inhabited

namespace Command

/-- The names of the commands. -/
inductive Name where
  | render
  | settings
  | eval
  | presets
  deriving Repr, DecidableEq, Inhabited

namespace Name

def all : List Name :=
  [.render, .settings, .eval, .presets]

def text : Name → String
  | .render => "render"
  | .settings => "settings"
  | .eval => "eval"
  | .presets => "presets"

/-- What a command does, in one line. -/
def purpose : Name → String
  | .render => "Generate a picture and write it to a file"
  | .settings => "Print the settings without rendering"
  | .eval => "Evaluate an expression at one point"
  | .presets => "List built-in functions, constants and preset formulas"

def ofText? (word : String) : Option Name :=
  all.find? fun name => name.text == word

/-- The flags that a command knows. -/
def flags : Name → List Flag
  | .render => .config :: Overrides.flags ++ [.output, .format, .dpi, .settingsOut, .help]
  | .settings => .config :: Overrides.flags ++ [.json, .help]
  | .eval => [.vars, .inputs, .seed, .help]
  | .presets => [.help]

/-- How many operands a command has room for. -/
def room : Name → Nat
  | .eval => 1
  | _ => 0

end Name

/-! ## Defaults -/

/-- The name under which the program presents itself. -/
def programName : String := "arabesque"

def defaultOutput : String := programName ++ ".png"

def defaultDpi : Nat := 100

def defaultVariables : List String := ["x"]

/-! ## Reading -/

/-- The settings that the arguments name and override. -/
def sourceOf (a : Arguments) : Except Stop SettingsSource := do
  .ok ⟨a.first? .config, ← Overrides.ofArguments a⟩

/-- What the arguments say of the picture. -/
def targetOf (a : Arguments) : Target where
  output := (a.first? .output).getD defaultOutput
  format := a.first? .format
  dpi := (a.first? .dpi).getD defaultDpi
  settingsOut := a.first? .settingsOut

/-- The variables of an evaluation. -/
def variablesOf (a : Arguments) : List String :=
  if a.has .vars then (a.all .vars).flatten else defaultVariables

/-- The command of a name with its arguments. An evaluation needs an expression. -/
def ofArguments (name : Name) (a : Arguments) : Except Stop Command :=
  match name with
  | .render => do .ok (.render (← sourceOf a) (targetOf a))
  | .settings => do .ok (.settings (← sourceOf a) (a.has .json))
  | .eval =>
    match a.operands with
    | [expression] =>
      .ok (.eval expression (variablesOf a) (a.all .inputs).flatten ((a.first? .seed).getD 0))
    | _ => .error .misuse
  | .presets => .ok .presets

/-- The words after `help` may name one command. -/
def helpOn : List String → Stop
  | [] => .help
  | [word] => if word = "help" ∨ (Name.ofText? word).isSome then .help else .misuse
  | _ => .misuse

/-- Where no command is named, only the flags for help and for the version have a place. -/
def unnamed (word : String) : Stop :=
  match Arguments.ofWords [.help, .version] 0 [word] with
  | .error stop => stop
  | .ok _ => .misuse

/-- Reads a command line. -/
def ofWords : List String → Except Stop Command
  | [] => .error .misuse
  | "help" :: words => .error (helpOn words)
  | word :: words =>
    match Name.ofText? word with
    | none => .error (unnamed word)
    | some name => do ofArguments name (← Arguments.ofWords name.flags name.room words)

end Command

end CurveArt
