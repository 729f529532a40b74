/-!
# Bytes, nibbles and the words made of them

A byte is eight bits and a nibble four.  A byte splits into its high half
(bits `4..8`) and its low half (bits `0..4`), and `Byte.ofNibbles` joins two
halves again; the two directions undo each other (`Byte.ofNibbles_high_low`,
`Byte.high_ofNibbles`, `Byte.low_ofNibbles`).

`Column` and `Block` are the two wide values of the cipher state: four bytes and
sixteen bytes, in state order.  `littleEndian` reads the bytes of a wide value as
one number, byte `k` holding bits `8k..8k + 8`, and `Bytes.ofWord` is the way
back.
-/

namespace WhiteBox

/-- Eight bits. -/
abbrev Byte := BitVec 8

/-- Four bits. -/
abbrev Nibble := BitVec 4

/-- Four bytes of the state, from the top row to the bottom one. -/
abbrev Column := Vector Byte 4

/-- The sixteen bytes of the state, column after column. -/
abbrev Block := Vector Byte 16

/-! ## Halves of a byte -/

/-- Bits `4..8` of a byte. -/
def Byte.high (b : Byte) : Nibble := b.extractLsb' 4 4

/-- Bits `0..4` of a byte. -/
def Byte.low (b : Byte) : Nibble := b.extractLsb' 0 4

/-- The byte with the given halves. -/
def Byte.ofNibbles (high low : Nibble) : Byte := high ++ low

/-- The byte whose low half is the nibble and whose high half is zero. -/
def Byte.ofNibble (n : Nibble) : Byte := n.setWidth 8

theorem Byte.high_ofNibbles (high low : Nibble) :
    Byte.high (Byte.ofNibbles high low) = high := by
  ext i h
  simp only [Byte.high, Byte.ofNibbles, BitVec.getElem_extractLsb', BitVec.getLsbD_append]
  rw [if_neg (by omega), Nat.add_sub_cancel_left, BitVec.getLsbD_eq_getElem h]

theorem Byte.low_ofNibbles (high low : Nibble) :
    Byte.low (Byte.ofNibbles high low) = low := by
  ext i h
  simp only [Byte.low, Byte.ofNibbles, BitVec.getElem_extractLsb', BitVec.getLsbD_append,
    Nat.zero_add]
  rw [if_pos h, BitVec.getLsbD_eq_getElem h]

theorem Byte.ofNibbles_high_low (b : Byte) :
    Byte.ofNibbles (Byte.high b) (Byte.low b) = b := by
  revert b; decide +kernel

theorem Byte.low_ofNibble (n : Nibble) : Byte.low (Byte.ofNibble n) = n := by
  revert n; decide

/-! ## Bytes as one word -/

/-- The number whose base-256 digits are the bytes, least significant first. -/
def littleEndian : List Byte → Nat
  | [] => 0
  | b :: rest => b.toNat + 256 * littleEndian rest

/-- Byte `k` of the result holds bits `8k..8k + 8` of the word. -/
def Bytes.ofWord {n : Nat} (k : Nat) (word : BitVec n) : Vector Byte k :=
  Vector.ofFn fun i => word.extractLsb' (8 * i) 8

/-- The word whose bits `8k..8k + 8` are byte `k`. -/
def Bytes.toWord {k : Nat} (n : Nat) (bytes : Vector Byte k) : BitVec n :=
  BitVec.ofNat n (littleEndian bytes.toList)

end WhiteBox
