/-!
# Surrounding blanks

Text from outside is taken without the blanks around it. A blank is any character with the Unicode
property White_Space. The property has twenty-five characters and is closed, so they are listed.
-/

namespace CurveArt.Text

/-- The characters with the property White_Space. -/
def isBlank (c : Char) : Bool :=
  let n := c.toNat
  (0x9 ≤ n && n ≤ 0xd) || n == 0x20 || n == 0x85 || n == 0xa0 || n == 0x1680 ||
    (0x2000 ≤ n && n ≤ 0x200a) || n == 0x2028 || n == 0x2029 || n == 0x202f || n == 0x205f ||
    n == 0x3000

/-- The text without the blanks before and after it. -/
def trim (text : List Char) : List Char :=
  ((text.dropWhile isBlank).reverse.dropWhile isBlank).reverse

/-- The string without the blanks before and after it. -/
def trimmed (text : String) : String :=
  String.ofList (trim text.toList)

/-- ASCII letters in lower case; all other characters stay. -/
def lowered (text : String) : String :=
  String.ofList (text.toList.map Char.toLower)

end CurveArt.Text
