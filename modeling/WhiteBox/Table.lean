import WhiteBox.Encoding
import WhiteBox.Matrix.Inverse
import WhiteBox.Coordinate

/-!
# Lookup tables

A `ByteTable` answers a value for each byte.  The network is made of three kinds.

* `MaskTable`: a byte of the state goes through a matrix on the whole state.
* `MixingInverseTable`: a byte of a word goes through the inverse of a matrix on
  words.
* `xorTable`: the two halves of a byte are added.

The first two place the byte in an otherwise zero value, so the sum of what the
tables of all places answer is what the matrix does to the whole value.

`ByteTable.encoded` folds the decoding of the input wire and the encoding of the
output wire into a table.
-/

namespace WhiteBox

/-- A value for each byte. -/
abbrev ByteTable (β : Type) := Byte → β

namespace ByteTable

variable {β : Type}

/-- All entries, in the order of their bytes. -/
def tabulate (t : ByteTable β) : Vector β 256 := Vector.ofFn fun i => t (BitVec.ofFin i)

/-- Decodes the input, looks it up, and encodes the answer. -/
def encoded (input : Encoding Byte) (t : ByteTable β) (output : Encoding β) : ByteTable β :=
  fun b => output.encode (t (input.decode b))

end ByteTable

/-- The wide value that holds a byte at one place and zero elsewhere. -/
def Bytes.single {k : Nat} (place : Nat) (b : Byte) : Vector Byte k :=
  Vector.ofFn fun i => if i.val = place then b else 0

/-! ## Tables of matrices -/

/-- Feeds one byte of the state through a mask. -/
structure MaskTable where
  /-- The matrix on the whole state. -/
  mask : Matrix 128
  /-- The byte of the state that the table reads. -/
  position : MaskPosition
  deriving DecidableEq

namespace MaskTable

/-- The table of a mask at a position, which has to be below sixteen. -/
def build (mask : Matrix 128) (position : Nat) : Except BuildError MaskTable := do
  let position ← Coordinate.ofNat .maskTablePosition position
  pure ⟨mask, position⟩

/-- The entries. -/
def table (t : MaskTable) : ByteTable Block := fun b =>
  t.mask.applyToBytes (Bytes.single t.position.val b)

end MaskTable

/-- Feeds one byte of a word through the inverse of a mixing bijection. -/
structure MixingInverseTable where
  /-- The inverse of the mixing bijection. -/
  inverse : Matrix 32
  /-- The byte of the word that the table reads. -/
  row : MixingRow
  deriving DecidableEq

namespace MixingInverseTable

/-- The table of an inverse at a row, which has to be below four. -/
def build (inverse : Matrix 32) (row : Nat) : Except BuildError MixingInverseTable := do
  let row ← Coordinate.ofNat .mixingBijectionRow row
  pure ⟨inverse, row⟩

/-- The table of a mixing bijection, which has to be invertible. -/
def ofMixing (mixing : Matrix 32) (row : Nat) : Except BuildError MixingInverseTable :=
  match mixing.invert? with
  | some inverse => build inverse row
  | none => .error (.singular .wordMixing)

/-- The entries. -/
def table (t : MixingInverseTable) : ByteTable Column := fun b =>
  t.inverse.applyToBytes (Bytes.single t.row.val b)

end MixingInverseTable

/-! ## The table of an XOR gate -/

/-- The sum of the two halves of a byte, in the low half. -/
def xorTable : ByteTable Byte := fun b => Byte.ofNibble (Byte.high b ^^^ Byte.low b)

end WhiteBox
