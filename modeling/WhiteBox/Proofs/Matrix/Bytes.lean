import WhiteBox.Proofs.Bytes
import WhiteBox.Proofs.Matrix.Elimination

/-!
# Matrices on byte vectors

A matrix on words of `8k` bits acts on vectors of `k` bytes.  The action is linear
(`Matrix.linear_applyToBytes`) and an inverse of the matrix undoes it
(`Matrix.applyToBytes_invert?`).

So the tables of a matrix, one for each byte of the vector, add up to the matrix: what each
answers is the matrix on one byte alone at its place, and a vector is the sum of these
(`Matrix.sum_applyToBytes_part`).  The tables of an inverse turn an image back
(`Matrix.sum_invert?_part`).
-/

namespace WhiteBox.Matrix

variable {k : Nat}

/-- A matrix takes sums of byte vectors to sums. -/
theorem linear_applyToBytes (m : Matrix (8 * k)) :
    Bytes.Linear (m.applyToBytes : Vector Byte k → Vector Byte k) where
  map_zero := by
    rw [applyToBytes, Bytes.toWord_zero]
    exact (congrArg _ m.apply_zero).trans Bytes.ofWord_zero
  map_xor u v := by
    rw [applyToBytes, Bytes.toWord_xor, apply_xor, Bytes.ofWord_xor, applyToBytes, applyToBytes]

/-- The inverse that elimination finds undoes the action on byte vectors. -/
theorem applyToBytes_invert? {m inverse : Matrix (8 * k)} (h : m.invert? = some inverse)
    (v : Vector Byte k) : inverse.applyToBytes (m.applyToBytes v) = v := by
  rw [applyToBytes, applyToBytes, Bytes.toWord_ofWord, (invert?_apply h).1, Bytes.ofWord_toWord]

/-- What a matrix does to the bytes of a vector one by one adds up to what it does to the
vector. -/
theorem sum_applyToBytes_part (m : Matrix (8 * k)) (v : Vector Byte k) :
    Bytes.sum ((List.finRange k).map fun p => m.applyToBytes (Bytes.part v p)) =
      m.applyToBytes v := by
  rw [← Function.comp_def, ← List.map_map, ← m.linear_applyToBytes.map_sum, Bytes.sum_part]

/-- What the inverse does to the bytes of an image adds up to the vector. -/
theorem sum_invert?_part {m inverse : Matrix (8 * k)} (h : m.invert? = some inverse)
    (v : Vector Byte k) :
    Bytes.sum ((List.finRange k).map fun p =>
      inverse.applyToBytes (Bytes.part (m.applyToBytes v) p)) = v :=
  (sum_applyToBytes_part inverse _).trans (applyToBytes_invert? h v)

end WhiteBox.Matrix
