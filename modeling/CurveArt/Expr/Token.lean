import CurveArt.Decimal.Reading

/-!
# Tokens

The text of an expression is cut into tokens, each as long as possible: `**` is one token, `1e5` one
number, `a.b` one name. Spaces, tabs and line ends separate tokens and mean nothing else. A
character that begins no token becomes a token of its own, `stray`, which no expression contains; so
cutting never fails, and where a text goes wrong is for the grammar to say.

Main statement: `scan_text` (a token's text and what follows it make up the input).
-/

namespace CurveArt

inductive Token where
  | number (value : Float)
  | name (name : String)
  | power
  | times
  | divide
  | plus
  | minus
  | leftParen
  | rightParen
  | comma
  | stray (c : Char)
  deriving Repr, Inhabited

/-- A token with the number of characters in front of it. -/
structure Lexeme where
  token : Token
  offset : Nat
  deriving Repr, Inhabited

namespace Token

/-- The characters that separate tokens. Other blanks are not skipped. -/
def isSkipped (c : Char) : Bool :=
  c == ' ' || c == '\t' || c == '\r' || c == '\n'

def startsName (c : Char) : Bool :=
  c.isAlpha || c == '_'

def continuesName (c : Char) : Bool :=
  c.isAlphanum || c == '_'

/-- The rest of a name after its first character: name characters, and points that a further name
part follows. -/
def scanName : List Char → List Char × List Char
  | '.' :: c :: rest =>
    if startsName c then
      let (part, after) := scanName rest
      ('.' :: c :: part, after)
    else ([], '.' :: c :: rest)
  | c :: rest =>
    if continuesName c then
      let (part, after) := scanName rest
      (c :: part, after)
    else ([], c :: rest)
  | [] => ([], [])

/-- The result of cutting one token off a text. -/
structure Scanned where
  token : Token
  text : List Char
  rest : List Char

/-- The token of a character that is one by itself. -/
def ofChar : Char → Token
  | '^' => .power
  | '*' => .times
  | '/' => .divide
  | '+' => .plus
  | '-' => .minus
  | '(' => .leftParen
  | ')' => .rightParen
  | ',' => .comma
  | c => .stray c

/-- Cuts the longest token off the text `c :: rest`. -/
def scan (c : Char) (rest : List Char) : Scanned :=
  match Decimal.scanNumber? (c :: rest) with
  | some (written, after) => ⟨.number written.value, written.text, after⟩
  | none =>
    if startsName c then
      let (part, after) := scanName rest
      ⟨.name (String.ofList (c :: part)), c :: part, after⟩
    else
      match c, rest with
      | '*', '*' :: after => ⟨.power, ['*', '*'], after⟩
      | c, rest => ⟨ofChar c, [c], rest⟩

theorem scanName_text (text : List Char) : (scanName text).1 ++ (scanName text).2 = text := by
  fun_induction scanName text <;> simp_all

/-- Cutting a token off loses nothing and invents nothing. -/
theorem scan_text (c : Char) (rest : List Char) :
    (scan c rest).text ++ (scan c rest).rest = c :: rest := by
  unfold scan
  split
  · rename_i h
    exact Decimal.scanNumber?_text h
  · split
    · simp [scanName_text]
    · split <;> rfl

theorem scan_text_ne_nil (c : Char) (rest : List Char) : (scan c rest).text ≠ [] := by
  unfold scan
  split
  · rename_i h
    exact Decimal.scanNumber?_ne_nil h
  · split
    · simp
    · split <;> simp

theorem scan_rest_length_lt (c : Char) (rest : List Char) :
    (scan c rest).rest.length < rest.length + 1 := by
  have htext := congrArg List.length (scan_text c rest)
  have hpos := List.length_pos_iff.2 (scan_text_ne_nil c rest)
  simp only [List.length_append, List.length_cons] at htext
  omega

end Token

/-- The tokens of a text that `offset` characters stand in front of. -/
def lexemes (offset : Nat) (text : List Char) : List Lexeme :=
  match text with
  | [] => []
  | c :: rest =>
    if Token.isSkipped c then lexemes (offset + 1) rest
    else
      let scanned := Token.scan c rest
      ⟨scanned.token, offset⟩ :: lexemes (offset + scanned.text.length) scanned.rest
termination_by text.length
decreasing_by
  · simp
  · exact Token.scan_rest_length_lt c rest

end CurveArt
