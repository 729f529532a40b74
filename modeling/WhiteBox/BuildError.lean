/-!
# Why a key or a table cannot be built

Encoding, decoding and looking up never fail.  Only building can: a caller hands
in a number that is too large for its place, a matrix that has to be invertible
and is not, or a nibble table that is not a permutation.  `BuildError` has one
constructor for each of these causes, and `BuildError.message` is the only place
where their wording lives.

The numbers that callers hand in are the six `Quantity`s.  Each has a name, used
in messages, and a largest value.  The largest round is one below the largest
byte, since the byte `0xff` marks the mask boundary in a label.

The fourth cause, `drawExhausted`, belongs to the keyed search for an invertible
matrix.  The search goes through one whole period of the key stream, after which
the candidates only repeat, so it arises exactly when no candidate of that stream
is invertible.
-/

namespace WhiteBox

/-- A number that a caller supplies and that is checked against a largest value. -/
inductive Quantity where
  /-- Round of the network. -/
  | round
  /-- Place in the state, counted in bytes. -/
  | bytePosition
  /-- Place in the state, counted in nibbles. -/
  | nibblePosition
  /-- Number of XOR gates folded so far. -/
  | gate
  /-- Byte of the state that a mask table reads. -/
  | maskTablePosition
  /-- Byte of the word that an inverse mixing table reads. -/
  | mixingBijectionRow
  deriving DecidableEq, Repr

namespace Quantity

/-- The name that messages use. -/
def name : Quantity → String
  | round => "round"
  | bytePosition => "byte position"
  | nibblePosition => "nibble position"
  | gate => "gate"
  | maskTablePosition => "mask table position"
  | mixingBijectionRow => "mixing bijection row"

/-- The largest accepted value. -/
def max : Quantity → Nat
  | round => 254
  | bytePosition => 255
  | nibblePosition => 255
  | gate => 255
  | maskTablePosition => 15
  | mixingBijectionRow => 3

/-- Every quantity fits a byte. -/
theorem max_lt (q : Quantity) : q.max < 256 := by
  cases q <;> decide

end Quantity

/-- What a matrix is for when it has to be invertible. -/
inductive MatrixUse where
  /-- It mixes the bits of one byte at the mask boundary. -/
  | byteMixing
  /-- It mixes the bits of one output column of a round. -/
  | wordMixing
  deriving DecidableEq, Repr

/-- The name that messages use. -/
def MatrixUse.name : MatrixUse → String
  | byteMixing => "byte mixing bijection"
  | wordMixing => "word mixing bijection"

/-- The cause of a failed construction. -/
inductive BuildError where
  /-- The value is above the largest one of its quantity. -/
  | outOfRange (quantity : Quantity) (value : Nat)
  /-- The matrix has no inverse. -/
  | singular (use : MatrixUse)
  /-- The sixteen entries are not the numbers below sixteen in some order. -/
  | notAPermutation
  /-- No candidate matrix of the key stream is invertible. -/
  | drawExhausted
  deriving DecidableEq, Repr

/-- The text that reports the cause. -/
def BuildError.message : BuildError → String
  | outOfRange q value => s!"{q.name} {value} is out of range (max {q.max})"
  | singular use => s!"{use.name} is not invertible"
  | notAPermutation => "nibble table is not a permutation of 0..16"
  | drawExhausted => "the key stream holds no invertible matrix"

end WhiteBox
