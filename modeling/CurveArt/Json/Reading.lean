import CurveArt.Json.Number
import CurveArt.Json.Text

/-!
# Reading JSON values of a known type

A reader takes a value of its type off the front of a text. Where something else stands there, the
fault is a wrong type if a JSON value begins there, and malformed text otherwise. Of a sequence or a
map only the first character is looked at before the type is found wrong.
-/

namespace CurveArt.Json

abbrev Reader (α : Type) : Type :=
  List Char → Except ReadError (α × List Char)

/-- The blanks of JSON. -/
def isBlank (c : Char) : Bool :=
  c == ' ' || c == '\n' || c == '\t' || c == '\r'

def skipBlanks (text : List Char) : List Char :=
  text.dropWhile isBlank

/-- Takes fixed characters off the front of a text. -/
def expect (word text : List Char) : Except ReadError (List Char) :=
  if word.isPrefixOf text then .ok (text.drop word.length) else .error .malformed

/-- The fault of a text, without blanks in front, that should begin with a value of another type. -/
def mismatch (expected : String) (text : List Char) : ReadError :=
  match text with
  | [] => .malformed
  | c :: rest =>
    let word (letters : List Char) (found : Found) : ReadError :=
      if letters.isPrefixOf text then .invalidType found expected else .malformed
    if c = 'n' then word ['n', 'u', 'l', 'l'] .null
    else if c = 't' then word ['t', 'r', 'u', 'e'] (.boolean true)
    else if c = 'f' then word ['f', 'a', 'l', 's', 'e'] (.boolean false)
    else if c = '-' ∨ c.isDigit then
      match readNumber text with
      | .ok (n, _) => .invalidType n.found expected
      | .error e => e
    else if c = '"' then
      match unquote? rest with
      | some (s, _) => .invalidType (.text (String.ofList s)) expected
      | none => .malformed
    else if c = '[' then .invalidType .sequence expected
    else if c = '\x7b' then .invalidType .map expected
    else .malformed

/-- Whether a number begins with the character. -/
def startsNumber (text : List Char) : Bool :=
  match text with
  | c :: _ => c == '-' || c.isDigit
  | [] => false

def readText (expected : String) : Reader String := fun text =>
  match skipBlanks text with
  | '"' :: rest =>
    match unquote? rest with
    | some (s, after) => .ok (String.ofList s, after)
    | none => .error .malformed
  | other => .error (mismatch expected other)

/-- Reads a number of any kind. -/
def readAnyNumber (expected : String) : Reader Number := fun text =>
  let text := skipBlanks text
  if startsNumber text then readNumber text else .error (mismatch expected text)

/-- Reads a number as a double. -/
def readFloat : Reader Float := fun text => do
  let (n, rest) ← readAnyNumber "f64" text
  match n with
  | .natural value => .ok (value.toUInt64.toFloat, rest)
  | .negative magnitude => .ok (-magnitude.toUInt64.toFloat, rest)
  | .float value => .ok (value, rest)

/-- Reads a whole number that is not negative and was written as such. -/
def readNatural (expected : String) : Reader Nat := fun text => do
  let (n, rest) ← readAnyNumber expected text
  match n with
  | .natural value => .ok (value, rest)
  | .negative magnitude => .error (.invalidValue (.negative magnitude) expected)
  | .float value => .error (.invalidType (.float value) expected)

def readBoolean : Reader Bool := fun text =>
  match skipBlanks text with
  | 't' :: rest => do .ok (true, ← expect ['r', 'u', 'e'] rest)
  | 'f' :: rest => do .ok (false, ← expect ['a', 'l', 's', 'e'] rest)
  | other => .error (mismatch "a boolean" other)

/-- Reads a value, or `null` as its absence. -/
def readOptional {α : Type} (read : Reader α) : Reader (Option α) := fun text =>
  match skipBlanks text with
  | 'n' :: rest => do .ok (none, ← expect ['u', 'l', 'l'] rest)
  | other => do
    let (value, rest) ← read other
    .ok (some value, rest)

/-- Moves to the next element of a sequence: the text where it begins, or nothing where the sequence
ends. Elements are separated by one comma each. -/
def nextElement? (first : Bool) (text : List Char) : Except ReadError (Option (List Char)) :=
  match skipBlanks text with
  | [] => .error .malformed
  | ']' :: _ => .ok none
  | c :: rest =>
    if first then .ok (some (c :: rest))
    else if c = ',' then
      match skipBlanks rest with
      | [] => .error .malformed
      | ']' :: _ => .error .malformed
      | element => .ok (some element)
    else .error .malformed

/-- Closes a sequence. -/
def closeSequence (text : List Char) : Except ReadError (List Char) :=
  expect [']'] (skipBlanks text)

/-- Reads a sequence of exactly two doubles. -/
def readPair : Reader (Float × Float) := fun text =>
  let expected := "a tuple of size 2"
  match skipBlanks text with
  | '[' :: rest => do
    match ← nextElement? true rest with
    | none => .error (.invalidLength 0 expected)
    | some element =>
      let (a, rest) ← readFloat element
      match ← nextElement? false rest with
      | none => .error (.invalidLength 1 expected)
      | some element =>
        let (b, rest) ← readFloat element
        .ok ((a, b), ← closeSequence rest)
  | other => .error (mismatch expected other)

/-- Reads the name of one of several values, from behind its opening quote. -/
def readName {α : Type} (known : List (String × α)) : Reader α := fun text =>
  match unquote? text with
  | none => .error .malformed
  | some (letters, rest) =>
    let name := String.ofList letters
    match known.find? fun entry => entry.1 == name with
    | some (_, value) => .ok (value, rest)
    | none => .error (.unknownVariant name (known.map Prod.fst))

/-- Reads one of several named values: its name, or a map from its name to `null`. Keys of a map are
strings, so a map in which another value stands for the name is malformed, not of a wrong type. -/
def readChoice {α : Type} (known : List (String × α)) : Reader α := fun text =>
  match skipBlanks text with
  | '"' :: rest => readName known rest
  | '\x7b' :: rest =>
    match skipBlanks rest with
    | '"' :: rest => do
      let (value, rest) ← readName known rest
      let rest ← expect [':'] (skipBlanks rest)
      match skipBlanks rest with
      | 'n' :: rest =>
        let rest ← expect ['u', 'l', 'l'] rest
        .ok (value, ← expect ['\x7d'] (skipBlanks rest))
      | other => .error (mismatch "unit" other)
    | _ => .error .malformed
  | _ => .error .malformed

end CurveArt.Json
