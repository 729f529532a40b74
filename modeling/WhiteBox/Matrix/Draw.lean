import WhiteBox.Matrix.Inverse
import WhiteBox.Keystream

/-!
# Drawing an invertible matrix

A stream of words is cut into candidates of `MixingSize.candidateWords` words each.
A row takes one word, or four for the widest matrices, least significant word
first; of a word that is wider than the row only the low bits count.

`drawMatrix?` answers the first candidate that is invertible and the position after
its words, so the next draw continues right behind it.
-/

namespace WhiteBox

namespace MixingSize

/-- The number of words that make up a row. -/
def wordsPerRow : MixingSize → Nat
  | byte => 1
  | word => 1
  | block => 4

/-- The number of words that make up a matrix. -/
def candidateWords (size : MixingSize) : Nat := size.bits * size.wordsPerRow

end MixingSize

/-- The number whose base-`2 ^ 32` digits are that many words from a position on,
least significant first. -/
def wordsValue (s : WordStream) : Nat → Nat → Nat
  | _, 0 => 0
  | pos, k + 1 => (s pos).toNat + UInt32.size * wordsValue s (pos + 1) k

/-- The matrix made of the words from a position on. -/
def candidate (size : MixingSize) (s : WordStream) (pos : Nat) : Matrix size.bits :=
  ⟨Vector.ofFn fun i =>
    BitVec.ofNat size.bits (wordsValue s (pos + size.wordsPerRow * i) size.wordsPerRow)⟩

/-- The first invertible candidate from a position on, and the position after it.
Gives up after `limit` candidates. -/
def drawMatrix? (size : MixingSize) (s : WordStream) :
    Nat → Nat → Option (Matrix size.bits × Nat)
  | 0, _ => none
  | limit + 1, pos =>
    let m := candidate size s pos
    if m.isInvertible then some (m, pos + size.candidateWords)
    else drawMatrix? size s limit (pos + size.candidateWords)

/-- A matrix together with its width. -/
structure SizedMatrix where
  /-- The width. -/
  size : MixingSize
  /-- The matrix of that width. -/
  matrix : Matrix size.bits

/-- Draws matrices of the given widths one after the other. -/
def drawMatrices? (s : WordStream) (limit : Nat) :
    List MixingSize → Nat → Option (List SizedMatrix × Nat)
  | [], pos => some ([], pos)
  | size :: sizes, pos => do
    let (m, pos) ← drawMatrix? size s limit pos
    let (rest, pos) ← drawMatrices? s limit sizes pos
    pure (⟨size, m⟩ :: rest, pos)

end WhiteBox
