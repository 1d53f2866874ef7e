/-!
# Words

Numbers of a fixed number of bits, with and without a sign.
-/

namespace CurveArt.Word

/-- How many words of so many bits there are; without a sign they stand for the numbers below
that. -/
def count (bits : Nat) : Nat :=
  Nat.pow 2 bits

/-- The least signed word of 32 bits. -/
def least32 : Int := -2147483648

/-- The greatest signed word of 32 bits. -/
def greatest32 : Int := 2147483647

end CurveArt.Word
