import CurveArt.Color.Text
import CurveArt.Decimal.Reading
import CurveArt.Preset
import CurveArt.Settings.Choice
import CurveArt.Word

/-!
# Flags

The flags of all commands: how each is spelled, how many values it takes, and what its values are.
`Flag.read?` reads the values of an occurrence; a flag whose values do not read is a misuse of the
command line.
-/

namespace CurveArt

/-- The flags of all commands. -/
inductive Flag where
  | config
  | style
  | f1
  | f2
  | preset1
  | preset2
  | sampling
  | domain
  | samples
  | colorMode
  | color
  | color1
  | color2
  | alpha
  | pointSize
  | lineWidth
  | jitter
  | mirror
  | noMirror
  | rotation
  | background
  | seed
  | figureSize
  | output
  | format
  | dpi
  | settingsOut
  | json
  | vars
  | inputs
  | help
  | version
  deriving Repr, DecidableEq, Inhabited

namespace Flag

/-! ## Spelling -/

/-- The names of a flag, which follow two hyphens. The formulas have a second name, which suits the
polar style. -/
def names : Flag → List String
  | .config => ["config"]
  | .style => ["style"]
  | .f1 => ["f1", "r"]
  | .f2 => ["f2", "theta"]
  | .preset1 => ["preset1"]
  | .preset2 => ["preset2"]
  | .sampling => ["sampling"]
  | .domain => ["domain"]
  | .samples => ["samples"]
  | .colorMode => ["color-mode"]
  | .color => ["color"]
  | .color1 => ["color1"]
  | .color2 => ["color2"]
  | .alpha => ["alpha"]
  | .pointSize => ["point-size"]
  | .lineWidth => ["line-width"]
  | .jitter => ["jitter"]
  | .mirror => ["mirror"]
  | .noMirror => ["no-mirror"]
  | .rotation => ["rotation"]
  | .background => ["background"]
  | .seed => ["seed"]
  | .figureSize => ["figure-size"]
  | .output => ["output"]
  | .format => ["format"]
  | .dpi => ["dpi"]
  | .settingsOut => ["settings-out"]
  | .json => ["json"]
  | .vars => ["vars"]
  | .inputs => ["at"]
  | .help => ["help"]
  | .version => ["version"]

/-- The letter of a flag, which follows one hyphen. -/
def letter? : Flag → Option Char
  | .samples => some 'n'
  | .output => some 'o'
  | .help => some 'h'
  | .version => some 'V'
  | _ => none

/-- How many words an occurrence takes as its values. -/
def arity : Flag → Nat
  | .domain | .figureSize => 2
  | .mirror | .noMirror | .json | .help | .version => 0
  | _ => 1

/-- Whether the values may begin with a hyphen, so that formulas and bounds can be negative. -/
def admitsHyphen : Flag → Bool
  | .f1 | .f2 | .domain | .inputs => true
  | _ => false

/-- Whether the flag may come more than once. -/
def repeats : Flag → Bool
  | .domain | .figureSize | .vars | .inputs => true
  | _ => false

/-- The flags that this one takes back where they come before it. -/
def revokes : Flag → List Flag
  | .mirror => [.noMirror]
  | .noMirror => [.mirror]
  | _ => []

/-! ## Values -/

/-- What an occurrence of a flag stands for. -/
abbrev Value : Flag → Type
  | .config | .f1 | .f2 | .output | .settingsOut => String
  | .style => Style
  | .preset1 | .preset2 => Preset
  | .sampling => Sampling
  | .domain | .figureSize => Float × Float
  | .samples | .dpi => Nat
  | .colorMode => ColorMode
  | .color | .color1 | .color2 | .background => Rgba
  | .alpha | .pointSize | .lineWidth | .jitter | .rotation => Float
  | .seed => UInt64
  | .format => ExportFormat
  | .vars => List String
  | .inputs => List Float
  | .mirror | .noMirror | .json | .help | .version => Unit

/-- Reads digits that stand for a number below the bound. -/
def boundedDigits? (bound : Nat) (digits : List Char) : Option Nat :=
  if digits ≠ [] ∧ digits.all Char.isDigit ∧ Decimal.digitsValue digits < bound then
    some (Decimal.digitsValue digits)
  else none

/-- Reads a natural number below the bound. It may carry a plus sign. -/
def natural? (bound : Nat) (word : String) : Option Nat :=
  match word.toList with
  | '+' :: digits => boundedDigits? bound digits
  | digits => boundedDigits? bound digits

/-- The same, where zero may also carry a minus sign. -/
def signedNatural? (bound : Nat) (word : String) : Option Nat :=
  match word.toList with
  | '-' :: digits => boundedDigits? 1 digits
  | _ => natural? bound word

/-- Reads a double. -/
def float? (word : String) : Option Float :=
  Decimal.number? word.toList

/-- A path is not empty. -/
def path? (word : String) : Option String :=
  if word = "" then none else some word

/-- The parts of a word between its commas. -/
def parts (word : String) : List String :=
  (word.toList.splitOn ',').map String.ofList

/-- The value of a flag that takes none. -/
def bare? : List String → Option Unit
  | [] => some ()
  | _ => none

/-- The value of a flag that takes one word. -/
def single? {α : Type} (read? : String → Option α) : List String → Option α
  | [word] => read? word
  | _ => none

/-- The value of a flag that takes two words of a kind. -/
def pair? {α : Type} (read? : String → Option α) : List String → Option (α × α)
  | [first, second] => do some (← read? first, ← read? second)
  | _ => none

/-- Reads the words of one occurrence. -/
def read? : (flag : Flag) → List String → Option flag.Value
  | .config => single? path?
  | .style => single? fun word => (Style.ofText word).toOption
  | .f1 => single? some
  | .f2 => single? some
  | .preset1 => single? fun word => (Preset.ofText word).toOption
  | .preset2 => single? fun word => (Preset.ofText word).toOption
  | .sampling => single? fun word => (Sampling.ofText word).toOption
  | .domain => pair? float?
  | .samples => single? (natural? (Word.count 64))
  | .colorMode => single? fun word => (ColorMode.ofText word).toOption
  | .color => single? Rgba.ofText?
  | .color1 => single? Rgba.ofText?
  | .color2 => single? Rgba.ofText?
  | .alpha => single? float?
  | .pointSize => single? float?
  | .lineWidth => single? float?
  | .jitter => single? float?
  | .mirror => bare?
  | .noMirror => bare?
  | .rotation => single? float?
  | .background => single? Rgba.ofText?
  | .seed => single? fun word => (natural? (Word.count 64) word).map Nat.toUInt64
  | .figureSize => pair? float?
  | .output => single? path?
  | .format => single? ExportFormat.ofText?
  | .dpi => single? (signedNatural? (Word.count 32))
  | .settingsOut => single? path?
  | .json => bare?
  | .vars => single? fun word => some (parts word)
  | .inputs => single? fun word => (parts word).mapM float?
  | .help => bare?
  | .version => bare?

end Flag

end CurveArt
