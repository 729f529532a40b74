import WhiteBox.Encoding
import WhiteBox.Matrix.Inverse

/-!
# The bytes of a mask

Outside the rounds each byte of a mask's output is shuffled half by half.  Inside
it is first multiplied by an invertible matrix.  `MaskByte` is the one or the
other.

A `ByteMixing` holds an invertible matrix and the inverse that elimination finds
for it, so decoding never has to invert anything.
-/

namespace WhiteBox

/-- An invertible matrix on bytes, with its inverse. -/
structure ByteMixing where
  /-- The matrix that encodes. -/
  matrix : Matrix 8
  /-- The matrix that decodes. -/
  inverse : Matrix 8
  /-- Elimination finds the one from the other. -/
  invert?_matrix : matrix.invert? = some inverse

namespace ByteMixing

/-- Takes a matrix that has to be invertible. -/
def ofMatrix (m : Matrix 8) : Except BuildError ByteMixing :=
  match h : m.invert? with
  | some inverse => .ok ⟨m, inverse, h⟩
  | none => .error (.singular .byteMixing)

/-- A mixing is determined by its matrix. -/
theorem ext_matrix {a b : ByteMixing} (h : a.matrix = b.matrix) : a = b := by
  obtain ⟨ma, ia, ha⟩ := a
  obtain ⟨mb, ib, hb⟩ := b
  simp only at h
  subst h
  rw [ha] at hb
  simp only [Option.some.injEq] at hb
  subst hb
  rfl

/-- Multiplies a byte by the matrix. -/
def encoding (m : ByteMixing) : Encoding Byte := ⟨m.matrix.apply, m.inverse.apply⟩

end ByteMixing

/-- A byte mixing followed by a shuffle of the halves. -/
structure MixedByte where
  /-- Applied first when encoding. -/
  first : ByteMixing
  /-- Applied last when encoding. -/
  second : NibblePair

/-- Mixes a byte and shuffles its halves. -/
def MixedByte.encoding (m : MixedByte) : Encoding Byte :=
  m.first.encoding.composed m.second.encoding

/-- One byte of a mask's output. -/
inductive MaskByte where
  /-- Its halves are shuffled. -/
  | plain (pair : NibblePair)
  /-- It is mixed, then its halves are shuffled. -/
  | mixed (byte : MixedByte)

/-- What the mask does to the byte. -/
def MaskByte.encoding : MaskByte → Encoding Byte
  | plain pair => pair.encoding
  | mixed byte => byte.encoding

/-- What a mask does to all bytes of its output. -/
def MaskByte.encodings {n : Nat} (bytes : Vector MaskByte n) : Encoding (Vector Byte n) :=
  .pointwise (bytes.map MaskByte.encoding)

end WhiteBox
