import WhiteBox.Coordinate

/-!
# Roles and their labels

A `Role` says what a keyed bijection is for: which kind of wire or mixing step,
and where in the network it sits.  Its *label* is the sixteen bytes that key it.

A label starts with the tag of its kind and goes on with one byte per coordinate;
the rest is zero.  The tags are the ASCII letters below.

* `ME`: position, sub-position, surface (`Role.mask`).
* `T`: round, position, sub-position (`Role.tyi`).
* `MI`: round, position, sub-position (`Role.mbInverse`).
* `X`: round, position, gate, surface (`Role.xor`).
* `R`: round, position, surface (`Role.round`).
* `MB`: width in bits, round, position (`Role.mixing`).

A mixing bijection on the mask boundary has no round and the byte `0xff` in its
place, which no numbered round has, since rounds end at `0xfe`.
-/

namespace WhiteBox

/-- Where a wire lies relative to the cancellation of the mixing bijection. -/
inductive Surface where
  /-- Right after a nonlinear table, with the mixing bijection still in place. -/
  | inside
  /-- After the mixing bijection has been cancelled. -/
  | outside
  deriving DecidableEq, Repr

/-- The byte of a label that names the surface. -/
def Surface.tag : Surface → Byte
  | inside => 0
  | outside => 1

/-- Width of a mixing bijection. -/
inductive MixingSize where
  /-- Eight bits, cancelled byte by byte at the mask boundary. -/
  | byte
  /-- Thirty-two bits, applied to one output column of a round. -/
  | word
  /-- A hundred and twenty-eight bits, a mask of the whole state. -/
  | block
  deriving DecidableEq, Repr

/-- The width in bits. -/
@[reducible] def MixingSize.bits : MixingSize → Nat
  | byte => 8
  | word => 32
  | block => 128

/-- What a keyed bijection is for. -/
inductive Role where
  /-- Output of an input or output mask: the masked byte of the state, the nibble
  of the mask's output, and the surface of the mask. -/
  | mask (position : BytePos) (subPosition : NibblePos) (surface : Surface)
  /-- Output of a round table and input of an XOR table: the byte fed into the
  table and the nibble of its output word. -/
  | tyi (round : Round) (position : BytePos) (subPosition : NibblePos)
  /-- Output of an inverse mixing table and input of an XOR table: the byte fed
  into the table and the nibble of its output word. -/
  | mbInverse (round : Round) (position : BytePos) (subPosition : NibblePos)
  /-- Running accumulator of an XOR chain: the nibble of the state and the number
  of gates folded in so far. -/
  | xor (round : Round) (position : NibblePos) (gate : Gate) (surface : Surface)
  /-- Output nibble of half a round. -/
  | round (round : Round) (position : NibblePos) (surface : Surface)
  /-- A linear mixing bijection, with no round on the mask boundary. -/
  | mixing (size : MixingSize) (round : Option Round) (position : BytePos)
  deriving DecidableEq, Repr

/-- Sixteen bytes that key one bijection. -/
abbrev Label := Vector Byte 16

/-- The label that starts with the given bytes and goes on with zeros. -/
def Label.padded (bytes : List Byte) : Label := Vector.ofFn fun i => bytes.getD i 0

namespace Role

/-- The byte that stands for a round, or for the mask boundary. -/
def roundByte : Option Round → Byte
  | none => 0xff
  | some r => r.toByte

/-- The tag of the role and the bytes of its coordinates. -/
def labelStart : Role → List Byte
  | mask p s f => [0x4d, 0x45, p.toByte, s.toByte, f.tag]
  | tyi r p s => [0x54, r.toByte, p.toByte, s.toByte]
  | mbInverse r p s => [0x4d, 0x49, r.toByte, p.toByte, s.toByte]
  | xor r p g f => [0x58, r.toByte, p.toByte, g.toByte, f.tag]
  | round r p f => [0x52, r.toByte, p.toByte, f.tag]
  | mixing m r p => [0x4d, 0x42, BitVec.ofNat 8 m.bits, roundByte r, p.toByte]

/-- The sixteen bytes that key the role. -/
def label (role : Role) : Label := Label.padded role.labelStart

end Role

end WhiteBox
