import CurveArt.Binary64.Extrema
import CurveArt.Binary64.Integral
import CurveArt.Random.Draw

/-!
# Colours

A colour has three channels and an opacity, each a double that is meant to lie in `[0, 1]`. What is
drawn or written are their bytes: the channel moved into `[0, 1]` and scaled to `0 … 255`.
-/

namespace CurveArt

structure Rgba where
  r : Float
  g : Float
  b : Float
  a : Float
  deriving Repr, Inhabited

namespace Rgba

/-- The channel value of a byte. -/
def channelOfByte (byte : Nat) : Float :=
  Binary64.ofCount byte / 255.0

/-- The byte of a channel. One that is not a number gives zero. -/
def byteOfChannel (channel : Float) : Nat :=
  (Binary64.clampedWhole 0 255
    (Binary64.round (Binary64.clamp 0.0 1.0 channel * 255.0))).toNat

/-- The opaque colour with the given bytes. -/
def ofBytes (r g b : Nat) : Rgba :=
  ⟨channelOfByte r, channelOfByte g, channelOfByte b, 1.0⟩

def bytes (c : Rgba) : List Nat :=
  [byteOfChannel c.r, byteOfChannel c.g, byteOfChannel c.b, byteOfChannel c.a]

def white : Rgba := ⟨1.0, 1.0, 1.0, 1.0⟩

def black : Rgba := ⟨0.0, 0.0, 0.0, 1.0⟩

def withOpacity (c : Rgba) (a : Float) : Rgba :=
  { c with a }

/-- The value at `t` on the way from `u` to `v`. -/
def mix (u v t : Float) : Float :=
  u * (1.0 - t) + v * t

/-- The colour at `t` on the way from one colour to another, channel by channel. -/
def blend (c d : Rgba) (t : Float) : Rgba :=
  ⟨mix c.r d.r t, mix c.g d.g t, mix c.b d.b t, mix c.a d.a t⟩

/-- An opaque colour whose channels are drawn in the order red, green, blue. -/
def drawn (s : Random.Stream) : Rgba × Random.Stream :=
  let (r, s) := s.unit
  let (g, s) := s.unit
  let (b, s) := s.unit
  (⟨r, g, b, 1.0⟩, s)

end Rgba

end CurveArt
