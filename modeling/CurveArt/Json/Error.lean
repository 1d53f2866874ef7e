import CurveArt.Decimal.Layout
import CurveArt.Text.Quoted

/-!
# Why stored settings are refused

Stored settings are read from front to back, and the first fault ends the reading. Text that is no
JSON is `malformed`; everything else names what was found and what should have stood there.
-/

namespace CurveArt.Json

/-- A value that should not have stood where it does. Of a sequence or a map only the kind is known,
as it has not been read. -/
inductive Found where
  | null
  | boolean (value : Bool)
  | natural (value : Nat)
  | negative (magnitude : Nat)
  | float (value : Float)
  | text (value : String)
  | sequence
  | map
  deriving Repr, Inhabited

inductive ReadError where
  | malformed
  | invalidType (found : Found) (expected : String)
  /-- The type is right, but the value is out of range. -/
  | invalidValue (found : Found) (expected : String)
  | invalidLength (length : Nat) (expected : String)
  | unknownVariant (name : String) (known : List String)
  | unknownField (name : String) (known : List String)
  | duplicateField (name : String)
  | invalidColor (text : String)
  deriving Repr, Inhabited

def Found.description : Found → String
  | .null => "null"
  | .boolean value => if value then "boolean `true`" else "boolean `false`"
  | .natural value => "integer `" ++ toString value ++ "`"
  | .negative magnitude => "integer `-" ++ toString magnitude ++ "`"
  | .float value => "floating point `" ++ NumberStyle.stored.render value ++ "`"
  | .text value => "string " ++ Text.quoted value
  | .sequence => "sequence"
  | .map => "map"

/-- The names in an offer of alternatives. -/
def alternatives : List String → String
  | [a] => "`" ++ a ++ "`"
  | [a, b] => "`" ++ a ++ "` or `" ++ b ++ "`"
  | names => "one of " ++ ", ".intercalate (names.map fun name => "`" ++ name ++ "`")

def ReadError.message : ReadError → String
  | .malformed => "malformed JSON"
  | .invalidType found expected =>
    "invalid type: " ++ found.description ++ ", expected " ++ expected
  | .invalidValue found expected =>
    "invalid value: " ++ found.description ++ ", expected " ++ expected
  | .invalidLength length expected =>
    "invalid length " ++ toString length ++ ", expected " ++ expected
  | .unknownVariant name known =>
    "unknown variant `" ++ name ++ "`, expected " ++ alternatives known
  | .unknownField name known => "unknown field `" ++ name ++ "`, expected " ++ alternatives known
  | .duplicateField name => "duplicate field `" ++ name ++ "`"
  | .invalidColor text => "invalid color '" ++ text ++ "'"

end CurveArt.Json
