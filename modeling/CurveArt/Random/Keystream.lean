/-!
# The keystream

All randomness of a run comes from one 64-bit seed. The seed is stretched to a key of eight words; a
key, a stream number and a block counter fix a block of sixteen words, through eight rounds of the
ChaCha mixing function. The word at a position of a stream is therefore a pure function,
`Key.word`, and the state of a consumer is no more than how many words it has taken.
-/

namespace CurveArt.Random

/-! ## From the seed to the key -/

/-- The state of the generator that stretches a seed, after the given number of steps. -/
def seedState (seed : UInt64) : Nat → UInt64
  | 0 => seed
  | n + 1 => seedState seed n * 6364136223846793005 + 11634580027462260723

/-- The word a state of that generator gives: its upper bits, folded and rotated by its top five. -/
def seedWord (state : UInt64) : UInt32 :=
  let folded := (((state >>> 18) ^^^ state) >>> 27).toUInt32
  let turn := (state >>> 59).toUInt32
  (folded >>> turn) ||| (folded <<< ((32 - turn) &&& 31))

abbrev Key := Vector UInt32 8

abbrev Block := Vector UInt32 16

/-- The key that a seed is stretched to. -/
def Key.ofSeed (seed : UInt64) : Key :=
  Vector.ofFn fun i => seedWord (seedState seed (i + 1))

/-! ## From the key to the words -/

def rotateLeft (x : UInt32) (n : UInt32) : UInt32 :=
  (x <<< n) ||| (x >>> (32 - n))

/-- Mixes four words of a block: each is added to one neighbour and turned into another. -/
def quarterRound (b : Block) (i j k l : Fin 16) : Block :=
  let p := b[i] + b[j]
  let s := rotateLeft (b[l] ^^^ p) 16
  let r := b[k] + s
  let q := rotateLeft (b[j] ^^^ r) 12
  let p := p + q
  let s := rotateLeft (s ^^^ p) 8
  let r := r + s
  let q := rotateLeft (q ^^^ r) 7
  (((b.set i p).set j q).set k r).set l s

/-- Mixes the four columns of a block, then its four diagonals. -/
def doubleRound (b : Block) : Block :=
  let b := quarterRound b 0 4 8 12
  let b := quarterRound b 1 5 9 13
  let b := quarterRound b 2 6 10 14
  let b := quarterRound b 3 7 11 15
  let b := quarterRound b 0 5 10 15
  let b := quarterRound b 1 6 11 12
  let b := quarterRound b 2 7 8 13
  quarterRound b 3 4 9 14

/-- The block before mixing: four constant words, the key, the block counter and the stream number,
each of the last two with its low word first. -/
def Key.initial (key : Key) (stream : UInt64) (counter : UInt64) : Block :=
  #v[0x61707865, 0x3320646e, 0x79622d32, 0x6b206574,
    key[0], key[1], key[2], key[3], key[4], key[5], key[6], key[7],
    counter.toUInt32, (counter >>> 32).toUInt32, stream.toUInt32, (stream >>> 32).toUInt32]

/-- A block of the keystream: eight rounds of mixing, added to what they started from. -/
def Key.block (key : Key) (stream : UInt64) (counter : UInt64) : Block :=
  let initial := key.initial stream counter
  let mixed := doubleRound (doubleRound (doubleRound (doubleRound initial)))
  Vector.zipWith (· + ·) mixed initial

/-- The word at a position of a stream. -/
def Key.word (key : Key) (stream : UInt64) (position : Nat) : UInt32 :=
  (key.block stream (position / 16).toUInt64)[position % 16]

end CurveArt.Random
