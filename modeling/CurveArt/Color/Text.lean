import CurveArt.Color.Basic
import CurveArt.Text.Blank
import CurveArt.Text.Hexadecimal

/-!
# Colours as text

A colour is written `#rrggbb`, or `#rrggbbaa` where it is not opaque. It is read from three, four,
six or eight hexadecimal digits after a `#`, or from a colour name in any case.
-/

namespace CurveArt

open Text (hexDigit hexValue?)

/-! ## Bytes -/

/-- The two digits of a byte. -/
def hexPair (byte : Nat) : List Char :=
  [hexDigit (byte / 16), hexDigit (byte % 16)]

/-- The byte that a pair of characters writes: two digits, or a plus sign and one digit. -/
def pairValue? (c d : Char) : Option Nat :=
  if c = '+' then hexValue? d
  else
    match hexValue? c, hexValue? d with
    | some high, some low => some (16 * high + low)
    | _, _ => none

/-- The bytes that a run of single digits writes, each digit standing for the pair of it. -/
def doubledBytes? : List Char → Option (List Nat)
  | [] => some []
  | c :: rest =>
    match hexValue? c, doubledBytes? rest with
    | some n, some bytes => some (17 * n :: bytes)
    | _, _ => none

/-- The bytes that a run of pairs writes. -/
def pairedBytes? : List Char → Option (List Nat)
  | [] => some []
  | [_] => none
  | c :: d :: rest =>
    match pairValue? c d, pairedBytes? rest with
    | some n, some bytes => some (n :: bytes)
    | _, _ => none

namespace Rgba

/-! ## Writing -/

/-- The colour in hexadecimal. The opacity is left out where its byte is full. -/
def text (c : Rgba) : String :=
  let shown := if byteOfChannel c.a = 255 then c.bytes.take 3 else c.bytes
  String.ofList ('#' :: shown.flatMap hexPair)

/-! ## Reading -/

/-- The colour of three bytes, or of three and an opacity. -/
def ofByteList? : List Nat → Option Rgba
  | [r, g, b] => some (ofBytes r g b)
  | [r, g, b, a] => some ((ofBytes r g b).withOpacity (channelOfByte a))
  | _ => none

/-- Reads the characters after the `#`. -/
def ofHex? (digits : List Char) : Option Rgba :=
  match digits.length with
  | 3 | 4 => (doubledBytes? digits).bind ofByteList?
  | 6 | 8 => (pairedBytes? digits).bind ofByteList?
  | _ => none

/-- The colours that have a name. -/
def named : List (String × Rgba) :=
  [("red", ⟨1.0, 0.0, 0.0, 1.0⟩), ("green", ⟨0.0, 1.0, 0.0, 1.0⟩), ("blue", ⟨0.0, 0.0, 1.0, 1.0⟩),
    ("black", black), ("white", white), ("gray", ⟨0.5, 0.5, 0.5, 1.0⟩),
    ("grey", ⟨0.5, 0.5, 0.5, 1.0⟩), ("cyan", ⟨0.0, 1.0, 1.0, 1.0⟩),
    ("magenta", ⟨1.0, 0.0, 1.0, 1.0⟩), ("yellow", ⟨1.0, 1.0, 0.0, 1.0⟩),
    ("orange", ⟨1.0, 0.5, 0.0, 1.0⟩), ("purple", ⟨0.5, 0.0, 0.5, 1.0⟩),
    ("transparent", ⟨0.0, 0.0, 0.0, 0.0⟩)]

def ofName? (name : String) : Option Rgba :=
  (named.find? fun entry => entry.1 == name).map Prod.snd

/-- Reads a colour, without the blanks around it. -/
def ofText? (text : String) : Option Rgba :=
  match Text.trim text.toList with
  | '#' :: digits => ofHex? digits
  | word => ofName? (String.ofList (word.map Char.toLower))

/-- What is said of a text that is no colour. -/
def invalidText (text : String) : String :=
  "invalid color '" ++ text ++ "'"

end Rgba

end CurveArt
