import CurveArt.Settings.Field

/-!
# Stored settings

Settings are stored as a JSON map from keys to values. When they are read, members may come in any
order and any of them may be missing, in which case the default holds; an unknown key and a second
member for a field are refused. A sequence is read too: its elements are the fields in their order,
and those beyond its end have their defaults.
-/

namespace CurveArt.Settings

/-! ## Writing -/

/-- All fields with their values. -/
def stored (s : Settings) : Json.Value :=
  .map (Field.all.map fun field => (field.key, Field.value s field))

/-- The stored settings on one line. -/
def storedText (s : Settings) : String :=
  String.ofList s.stored.compact

/-- The stored settings with one value to a line. -/
def storedLines (s : Settings) : String :=
  String.ofList (s.stored.lines 0)

/-! ## Reading -/

open Json (ReadError)

/-- Moves to the next member of a map: the text behind the opening quote of its key, or nothing,
with what follows the map, where the map ends. -/
def nextMember? (first : Bool) (text : List Char) :
    Except ReadError (Option (List Char) × List Char) :=
  match Json.skipBlanks text with
  | '\x7d' :: rest => .ok (none, rest)
  | '"' :: rest => if first then .ok (some rest, []) else .error .malformed
  | ',' :: rest =>
    if first then .error .malformed
    else
      match Json.skipBlanks rest with
      | '"' :: rest => .ok (some rest, [])
      | _ => .error .malformed
  | _ => .error .malformed

/-- Reads the members of a map into settings. As no field may come twice, there is one more step
than fields at most. -/
def readMembers : Nat → List Field → Settings → Json.Reader Settings
  | 0, _, _, _ => .error .malformed
  | fuel + 1, seen, s, text => do
    match ← nextMember? seen.isEmpty text with
    | (none, rest) => .ok (s, rest)
    | (some afterQuote, _) =>
      match Json.unquote? afterQuote with
      | none => .error .malformed
      | some (key, rest) =>
        match Field.ofKey? (String.ofList key) with
        | none => .error (.unknownField (String.ofList key) Field.knownKeys)
        | some field =>
          if seen.contains field then .error (.duplicateField field.key)
          else
            let rest ← Json.expect [':'] (Json.skipBlanks rest)
            let (s, rest) ← Field.update s field rest
            readMembers fuel (field :: seen) s rest

/-- Reads the elements of a sequence into the given fields, up to where it ends. -/
def readElements (first : Bool) : List Field → Settings → Json.Reader Settings
  | [], s, text => do .ok (s, ← Json.closeSequence text)
  | field :: fields, s, text => do
    match ← Json.nextElement? first text with
    | none => .ok (s, ← Json.closeSequence text)
    | some element =>
      let (s, rest) ← Field.update s field element
      readElements false fields s rest

/-- Reads settings off the front of a text. -/
def readStored : Json.Reader Settings := fun text =>
  match Json.skipBlanks text with
  | '[' :: rest => readElements true Field.all default rest
  | '\x7b' :: rest => readMembers (Field.all.length + 1) [] default rest
  | other => .error (Json.mismatch "struct Settings" other)

/-- Reads stored settings. Nothing but blanks may follow them. -/
def ofStored (text : String) : Except ReadError Settings := do
  let (s, rest) ← readStored text.toList
  if Json.skipBlanks rest = [] then .ok s else .error .malformed

end CurveArt.Settings
