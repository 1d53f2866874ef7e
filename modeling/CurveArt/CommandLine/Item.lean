import CurveArt.CommandLine.Flag

/-!
# Items of a command line

The words of a command line make up items: flags with their values, and operands. A flag is spelled
`--name` or with one hyphen and its letter; its value is the next word or is attached, as in
`--name=value`, `-lvalue` and `-l=value`, and letters of flags without values can be joined. A word
that begins with a hyphen is no value, except for flags that admit it, and after `--` there are only
operands.
-/

namespace CurveArt

/-- A part of a command line that stands for itself. -/
inductive Item where
  | given (flag : Flag) (values : List String)
  | operand (text : String)
  deriving Repr, Inhabited

namespace Item

/-- What is expected of the next word. -/
inductive State where
  /-- A flag or an operand. -/
  | free
  /-- A value of the flag, after the values `taken`; `more` of them follow this one. -/
  | value (flag : Flag) (taken : List String) (more : Nat)
  /-- Operands only. -/
  | operands
  deriving Repr, Inhabited

/-- The items that a word completes, and the state after it. No state is left where the word has no
place. -/
abbrev Step : Type :=
  List Item × Option State

/-- Whether a word is spelled like a flag. A lone hyphen is not. -/
def isFlagLike : List Char → Bool
  | '-' :: _ :: _ => true
  | _ => false

/-- A flag whose values are the words that follow. -/
def opened (flag : Flag) : Step :=
  match flag.arity with
  | 0 => ([.given flag []], some .free)
  | more + 1 => ([], some (.value flag [] more))

/-- A flag with an attached value, which has to be its only one. -/
def attached (flag : Flag) (value : List Char) : Step :=
  if flag.arity = 1 then ([.given flag [String.ofList value]], some .free) else ([], none)

/-- A flag by its name, with a value attached by an equals sign if there is one. -/
def named (flags : List Flag) (text : List Char) : Step :=
  let name := String.ofList (text.takeWhile (· ≠ '='))
  match flags.find? fun flag => flag.names.contains name, text.dropWhile (· ≠ '=') with
  | some flag, [] => opened flag
  | some flag, _ :: value => attached flag value
  | none, _ => ([], none)

/-- Flags by their letters. What follows the letter of a flag with values is its value. -/
def lettered (flags : List Flag) : List Char → Step
  | [] => ([], some .free)
  | c :: rest =>
    match flags.find? fun flag => flag.letter? == some c with
    | none => ([], none)
    | some flag =>
      if flag.arity = 0 then
        let (items, state) := lettered flags rest
        (.given flag [] :: items, state)
      else
        match rest with
        | [] => opened flag
        | '=' :: value => attached flag value
        | value => attached flag value

/-- Reads one word. -/
def step (flags : List Flag) : State → String → Step
  | .operands, word => ([.operand word], some .operands)
  | .value flag taken more, word =>
    if !flag.admitsHyphen && isFlagLike word.toList then ([], none)
    else
      match more with
      | 0 => ([.given flag (taken ++ [word])], some .free)
      | more + 1 => ([], some (.value flag (taken ++ [word]) more))
  | .free, word =>
    match word.toList with
    | ['-', '-'] => ([], some .operands)
    | '-' :: '-' :: text => named flags text
    | '-' :: c :: text => lettered flags (c :: text)
    | _ => ([.operand word], some .free)

/-- Whether a command line can end in a state: no flag waits for a value. -/
def State.isComplete : State → Bool
  | .value .. => false
  | _ => true

/-- The items of a command line, up to the first word that has no place; the truth value says
whether there is none and nothing is missing at the end. -/
def read (flags : List Flag) : State → List String → List Item × Bool
  | state, [] => ([], state.isComplete)
  | state, word :: rest =>
    match step flags state word with
    | (items, none) => (items, false)
    | (items, some next) =>
      let (more, complete) := read flags next rest
      (items ++ more, complete)

/-- The items of all words of a command line. -/
def ofWords (flags : List Flag) (words : List String) : List Item × Bool :=
  read flags .free words

end Item

end CurveArt
