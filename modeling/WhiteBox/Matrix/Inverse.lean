import WhiteBox.Matrix

/-!
# Inverting a matrix

`Matrix.invert?` runs Gaussian elimination.  It keeps two matrices: the left one
starts as the matrix and is turned into the identity, the right one starts as the
identity and receives the same row operations, so it ends as the inverse.

Column by column, the first row at or below the diagonal with a bit in the column
is swapped onto the diagonal, and the diagonal row is then added to every other
row with a bit in that column.  A column without such a row ends the elimination:
the matrix has no inverse.
-/

namespace WhiteBox.Matrix

variable {n : Nat}

/-- Exchanges two rows. -/
def swapRows (m : Matrix n) (i j : Fin n) : Matrix n := ⟨m.rows.swap i j i.isLt j.isLt⟩

/-- Adds row `source` to every chosen row. -/
def addRow (m : Matrix n) (source : Fin n) (chosen : Fin n → Bool) : Matrix n :=
  ⟨Vector.ofFn fun i => if chosen i then m.row i ^^^ m.row source else m.row i⟩

/-- The first row at or below `c` with a bit in column `c`. -/
def pivot? (m : Matrix n) (c : Fin n) : Option (Fin n) :=
  (List.finRange n).find? fun i => decide (c ≤ i) && m.entry i c

/-- A matrix on its way to the identity, and what the same steps made of the
identity. -/
structure Elimination (n : Nat) where
  /-- What is left of the matrix. -/
  left : Matrix n
  /-- The row operations so far, applied to the identity. -/
  right : Matrix n

/-- Brings column `c` to a single bit on the diagonal. -/
def Elimination.clear (s : Elimination n) (c : Fin n) : Option (Elimination n) := do
  let p ← s.left.pivot? c
  let left := s.left.swapRows p c
  let right := s.right.swapRows p c
  let chosen := fun i => decide (i ≠ c) && left.entry i c
  pure ⟨left.addRow c chosen, right.addRow c chosen⟩

/-- Clears the given columns one after the other. -/
def Elimination.run (s : Elimination n) : List (Fin n) → Option (Elimination n)
  | [] => some s
  | c :: rest => do
    let s ← s.clear c
    s.run rest

/-- The inverse, if there is one. -/
def invert? (m : Matrix n) : Option (Matrix n) :=
  (Elimination.run ⟨m, identity⟩ (List.finRange n)).map Elimination.right

/-- Whether the matrix has an inverse. -/
def isInvertible (m : Matrix n) : Bool := m.invert?.isSome

end WhiteBox.Matrix
