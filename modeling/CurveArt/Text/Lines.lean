/-!
# Lines of text
-/

namespace CurveArt.Text

/-- Lines one below the other, each with its end. -/
def ofLines (lines : List String) : String :=
  String.join (lines.map (· ++ "\n"))

/-- A text with blanks behind it up to the given width. -/
def padded (width : Nat) (text : String) : String :=
  text ++ String.ofList (List.replicate (width - text.length) ' ')

end CurveArt.Text
