import CurveArt.Random.Keystream
import CurveArt.Word

/-!
# Drawing numbers

A `Stream` is a place in one of the numbered streams of a key. Every draw takes a number of words
from that place on, so what a consumer draws does not depend on any other consumer. Draws from a
range repeat until a candidate falls inside; `maxRejections` bounds the repetition, and running into
the bound is an outcome of its own.
-/

namespace CurveArt.Random

/-- A place in the stream of the given number. -/
structure Stream where
  key : Key
  number : UInt64
  /-- How many words have been taken. -/
  position : Nat
  deriving DecidableEq

/-- Why a draw from a range gives nothing. -/
inductive DrawError where
  /-- No double lies in the range, or its width is not a finite double. -/
  | emptyRange
  /-- All candidates up to the bound fell outside. -/
  | exhausted
  deriving Repr, DecidableEq, Inhabited

/-- The most candidates that a draw from a range tries. -/
def maxRejections : Nat := 1000

namespace Stream

/-- The start of stream number `number` of a run with the given seed. -/
def ofSeed (seed : UInt64) (number : UInt64) : Stream :=
  ⟨Key.ofSeed seed, number, 0⟩

/-- The stream further along. -/
def skip (s : Stream) (words : Nat) : Stream :=
  { s with position := s.position + words }

/-- The word `offset` places ahead. -/
def peek (s : Stream) (offset : Nat) : UInt32 :=
  s.key.word s.number (s.position + offset)

/-- Takes one word. -/
def word (s : Stream) : UInt32 × Stream :=
  (s.peek 0, s.skip 1)

/-- Takes two words as one, the low one first. -/
def longWord (s : Stream) : UInt64 × Stream :=
  ((s.peek 0).toUInt64 ||| ((s.peek 1).toUInt64 <<< 32), s.skip 2)

/-- A multiple of `2^-53` in `[0, 1)`. -/
def unit (s : Stream) : Float × Stream :=
  let (bits, s) := s.longWord
  ((bits >>> 11).toFloat * Float.ofBits 0x3ca0000000000000, s)

/-- The candidate of a draw between `low` and `low + width`. -/
def candidate (low width : Float) (bits : UInt64) : Float :=
  ((bits >>> 12).toFloat * Float.ofBits 0x3cb0000000000000) * width + low

/-- Tries candidates until one lies below `high`, as rounding can carry one up to `high` itself. -/
def betweenWithin (low width high : Float) : Nat → Stream → Except DrawError Float × Stream
  | 0, s => (.error .exhausted, s)
  | tries + 1, s =>
    let (bits, s) := s.longWord
    let x := candidate low width bits
    if x < high then (.ok x, s) else betweenWithin low width high tries s

/-- A double in `[low, high)`. -/
def between (low high : Float) (s : Stream) : Except DrawError Float × Stream :=
  let width := high - low
  if low < high ∧ width.isFinite then betweenWithin low width high maxRejections s
  else (.error .emptyRange, s)

/-- Tries 64-bit words until the low half of the product with `size` is at most `zone`; the high
half is then evenly spread below `size`. -/
def belowWithin (size zone : Nat) : Nat → Stream → Except DrawError Nat × Stream
  | 0, s => (.error .exhausted, s)
  | tries + 1, s =>
    let (bits, s) := s.longWord
    let product := bits.toNat * size
    if product % Word.count 64 ≤ zone then (.ok (product / Word.count 64), s)
    else belowWithin size zone tries s

/-- A number from `low` to `high`, both included. The accepted zone is the greatest multiple of the
range's size that a shift of it reaches in 64 bits. -/
def fromTo (low high : Nat) (s : Stream) : Except DrawError Nat × Stream :=
  if low ≤ high then
    let size := high - low + 1
    let zone := size * Nat.pow 2 (63 - Nat.log2 size) - 1
    match belowWithin size zone maxRejections s with
    | (.ok n, s) => (.ok (low + n), s)
    | (.error e, s) => (.error e, s)
  else (.error .emptyRange, s)

end Stream

end CurveArt.Random
