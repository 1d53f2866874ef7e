import CurveArt.CommandLine.Item

/-!
# Arguments of a command

The items of a command line with the values of all flags read. Items are taken from left to right:
the first one that does not fit is a misuse, unless a flag that asks for help or for the version
comes before it.
-/

namespace CurveArt

/-- Why a command line gives no command. -/
inductive Stop where
  /-- The words do not fit together. -/
  | misuse
  /-- Help is asked for instead. -/
  | help
  /-- The version is asked for instead. -/
  | version
  deriving Repr, DecidableEq, Inhabited

/-- A flag with its value. -/
structure Given where
  flag : Flag
  value : flag.Value

/-- The value, if it belongs to the flag asked for. -/
def Given.value? (g : Given) (flag : Flag) : Option flag.Value :=
  if h : g.flag = flag then some (h ▸ g.value) else none

/-- A flag has no value of another one. -/
theorem Given.value?_of_ne {g : Given} {flag : Flag} (h : g.flag ≠ flag) :
    g.value? flag = none := by
  simp [Given.value?, h]

/-- What a command is given. -/
structure Arguments where
  /-- The flags in their order. -/
  given : List Given
  operands : List String

namespace Arguments

/-- No flags and no operands. -/
def empty : Arguments := ⟨[], []⟩

/-- Whether a flag is given. -/
def has (a : Arguments) (flag : Flag) : Bool :=
  a.given.any fun g => g.flag == flag

/-- The values of all occurrences of a flag. -/
def all (a : Arguments) (flag : Flag) : List flag.Value :=
  a.given.filterMap fun g => g.value? flag

/-- The value of the first occurrence of a flag. -/
def first? (a : Arguments) (flag : Flag) : Option flag.Value :=
  (a.all flag).head?

/-! ## Reading -/

/-- Adds an occurrence of a flag. A flag that does not repeat has to be new, and those that it
revokes are forgotten. -/
def give? (a : Arguments) (flag : Flag) (values : List String) : Option Arguments :=
  match flag.read? values with
  | none => none
  | some value =>
    if !flag.repeats && a.has flag then none
    else
      let kept := a.given.filter fun g => !flag.revokes.contains g.flag
      some { a with given := kept ++ [⟨flag, value⟩] }

/-- Adds an item; there is room for so many operands. -/
def add (room : Nat) (a : Arguments) : Item → Except Stop Arguments
  | .given .help _ => .error .help
  | .given .version _ => .error .version
  | .given flag values =>
    match a.give? flag values with
    | some a => .ok a
    | none => .error .misuse
  | .operand text =>
    if a.operands.length < room then .ok { a with operands := a.operands ++ [text] }
    else .error .misuse

/-- Reads the words of a command that knows the given flags and has room for so many operands. -/
def ofWords (flags : List Flag) (room : Nat) (words : List String) : Except Stop Arguments := do
  let (items, complete) := Item.ofWords flags words
  let a ← items.foldlM (add room) empty
  if complete then .ok a else .error .misuse

end Arguments

end CurveArt
