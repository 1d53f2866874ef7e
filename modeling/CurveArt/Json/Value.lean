import CurveArt.Json.Text

/-!
# JSON values as they are written

Numbers keep the text that they are written with. A value is written either on one line without any
blanks, or with one element to a line and two blanks for each level.
-/

namespace CurveArt.Json

inductive Value where
  | null
  | boolean (value : Bool)
  | number (digits : String)
  | text (content : String)
  | sequence (elements : List Value)
  | map (members : List (String × Value))
  deriving Inhabited

/-- Two blanks for each level. -/
def indent (level : Nat) : List Char :=
  List.replicate (2 * level) ' '

def Value.scalar : Value → List Char
  | .boolean true => ['t', 'r', 'u', 'e']
  | .boolean false => ['f', 'a', 'l', 's', 'e']
  | .number digits => digits.toList
  | .text content => quote content.toList
  | _ => ['n', 'u', 'l', 'l']

mutual

/-- The value on one line. -/
def Value.compact : Value → List Char
  | .sequence elements => '[' :: compactElements elements ++ [']']
  | .map members => '\x7b' :: compactMembers members ++ ['\x7d']
  | value => value.scalar

def compactElements : List Value → List Char
  | [] => []
  | [value] => value.compact
  | value :: rest => value.compact ++ ',' :: compactElements rest

def compactMembers : List (String × Value) → List Char
  | [] => []
  | [(key, value)] => quote key.toList ++ ':' :: value.compact
  | (key, value) :: rest => quote key.toList ++ ':' :: value.compact ++ ',' :: compactMembers rest

end

mutual

/-- The value with one element to a line, its own lines being indented to `level`. -/
def Value.lines (level : Nat) : Value → List Char
  | .sequence [] => ['[', ']']
  | .sequence elements => '[' :: elementLines level elements ++ '\n' :: indent level ++ [']']
  | .map [] => ['\x7b', '\x7d']
  | .map members => '\x7b' :: memberLines level members ++ '\n' :: indent level ++ ['\x7d']
  | value => value.scalar

def elementLines (level : Nat) : List Value → List Char
  | [] => []
  | value :: rest =>
    '\n' :: indent (level + 1) ++ value.lines (level + 1) ++
      (if rest.isEmpty then [] else [',']) ++ elementLines level rest

def memberLines (level : Nat) : List (String × Value) → List Char
  | [] => []
  | (key, value) :: rest =>
    '\n' :: indent (level + 1) ++ quote key.toList ++ ':' :: ' ' :: value.lines (level + 1) ++
      (if rest.isEmpty then [] else [',']) ++ memberLines level rest

end

/-- A double. JSON has no infinities, and no value that is not a number. -/
def Value.ofFloat (x : Float) : Value :=
  if x.isFinite then .number (NumberStyle.stored.render x) else .null

end CurveArt.Json
