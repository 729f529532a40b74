import Mathlib.Algebra.BigOperators.Fin
import Mathlib.Data.BitVec
import Mathlib.Data.Set.Card
import WhiteBox.Proofs.Draw

/-!
# Blocks of words and their matrices

A candidate takes a block of `MixingSize.candidateWords` words, and nothing else of the stream
(`candidate_eq_ofBlock`).  Its rows come from one piece of the block each.  A piece is a number
in base `2 ^ 32`, and the row is this number without the bits that lie above the row.

So a block is the same as a matrix together with what is left over above each row
(`splitBlock`), and every matrix comes from the same number of blocks (`ncard_ofBlock`).  Nothing
is left over at widths 32 and 128, where there is one block for each matrix.  At width eight 24
bits are left over above each of eight rows.
-/

namespace WhiteBox

/-! ## Pieces of a stream -/

/-- A stream that begins with the given words.  Zeros follow. -/
def fill {n : Nat} (words : Fin n → UInt32) : WordStream :=
  fun i => if h : i < n then words ⟨i, h⟩ else 0

theorem fill_apply {n : Nat} (words : Fin n → UInt32) (i : Fin n) : fill words i = words i :=
  dif_pos i.isLt

/-- `k * n` words are `k` pieces of `n` words, one behind the other. -/
def pieces (k n : Nat) : (Fin (k * n) → UInt32) ≃ (Fin k → Fin n → UInt32) :=
  (Equiv.arrowCongr finProdFinEquiv.symm (Equiv.refl UInt32)).trans (Equiv.curry _ _ _)

theorem fill_piece {k n : Nat} (words : Fin (k * n) → UInt32) (j : Fin k) (i : Fin n) :
    fill words (j * n + i) = pieces k n words j i := by
  have place : j.val * n + i = (finProdFinEquiv (j, i)).val := by
    rw [finProdFinEquiv_apply_val, Nat.add_comm, Nat.mul_comm]
  rw [place, fill_apply]
  rfl

/-! ## Numbers in base `2 ^ 32` -/

/-- Words as digits, least significant first. -/
def number (k : Nat) : (Fin k → UInt32) ≃ Fin (UInt32.size ^ k) :=
  (Equiv.arrowCongr (Equiv.refl (Fin k))
    ⟨UInt32.toFin, UInt32.ofFin, fun _ => rfl, fun _ => rfl⟩).trans finFunctionFinEquiv

theorem number_apply (k : Nat) (words : Fin k → UInt32) :
    (number k words).val = ∑ i, (words i).toNat * UInt32.size ^ i.val := rfl

theorem wordsValue_eq_number (s : WordStream) (pos k : Nat) :
    wordsValue s pos k = number k fun i => s (pos + i) := by
  induction k generalizing pos with
  | zero => rfl
  | succ k ih =>
    rw [wordsValue, ih, number_apply, number_apply, Fin.sum_univ_succ, Finset.mul_sum]
    congr 1
    · simp
    · refine Finset.sum_congr rfl fun i _ => ?_
      have place : pos + 1 + i.val = pos + i.succ.val := Nat.add_right_comm pos 1 i
      rw [place, Fin.val_succ, Nat.pow_succ', Nat.mul_left_comm]

namespace MixingSize

variable (size : MixingSize)

/-- The number of ways to fill the bits that lie above a row. -/
def surplus : Nat := 2 ^ (32 * size.wordsPerRow - size.bits)

theorem size_pow_wordsPerRow : UInt32.size ^ size.wordsPerRow = size.surplus * 2 ^ size.bits := by
  cases size <;> rfl

/-- The words of a row are the bits above the row and the row itself. -/
def splitRow : (Fin size.wordsPerRow → UInt32) ≃ Fin size.surplus × BitVec size.bits :=
  (number size.wordsPerRow).trans <| (finCongr size.size_pow_wordsPerRow).trans <|
    finProdFinEquiv.symm.trans <| Equiv.prodCongr (Equiv.refl _) BitVec.equivFin.toEquiv.symm

theorem splitRow_snd (words : Fin size.wordsPerRow → UInt32) :
    (size.splitRow words).2 = BitVec.ofNat size.bits (number size.wordsPerRow words) := rfl

/-- The number of blocks that give the same matrix. -/
def copies : MixingSize → Nat
  | byte => 2 ^ 192
  | word => 1
  | block => 1

theorem surplus_pow_bits : size.surplus ^ size.bits = size.copies := by
  cases size <;> rfl

end MixingSize

/-! ## Blocks -/

/-- A matrix is its rows. -/
def Matrix.equivRows {n : Nat} : Matrix n ≃ (Fin n → BitVec n) where
  toFun := row
  invFun rows := ⟨Vector.ofFn rows⟩
  left_inv m := ext_row fun i => row_ofFn m.row i
  right_inv rows := funext (row_ofFn rows)

variable {size : MixingSize}

/-- The words of one candidate. -/
abbrev WordBlock (size : MixingSize) := Fin size.candidateWords → UInt32

/-- The matrix that a block of words gives. -/
def ofBlock (block : WordBlock size) : Matrix size.bits := candidate size (fill block) 0

/-- The rows of a block. -/
def blockRows (size : MixingSize) :
    WordBlock size ≃ (Fin size.bits → Fin size.wordsPerRow → UInt32) :=
  pieces size.bits size.wordsPerRow

theorem row_candidate (s : WordStream) (pos : Nat) (i : Fin size.bits) :
    (candidate size s pos).row i =
      (size.splitRow fun l => s (pos + size.wordsPerRow * i + l)).2 := by
  rw [candidate, Matrix.row_ofFn, wordsValue_eq_number, MixingSize.splitRow_snd]

theorem row_ofBlock (block : WordBlock size) (i : Fin size.bits) :
    (ofBlock block).row i = (size.splitRow (blockRows size block i)).2 := by
  rw [ofBlock, row_candidate]
  congr 2
  funext l
  rw [Nat.zero_add, Nat.mul_comm]
  exact fill_piece block i l

/-- A candidate depends on the words of its block only. -/
theorem candidate_eq_ofBlock (s : WordStream) (pos : Nat) :
    candidate size s pos = ofBlock fun i : Fin size.candidateWords => s (pos + i) := by
  refine Matrix.ext_row fun i => ?_
  rw [row_candidate, row_ofBlock]
  congr 2
  funext l
  have place : (finProdFinEquiv (i, l) : Nat) = size.wordsPerRow * i + l := by
    rw [finProdFinEquiv_apply_val, Nat.add_comm]
  show _ = s (pos + (finProdFinEquiv (i, l) : Nat))
  rw [place, Nat.add_assoc]

/-- A block is its matrix together with what lies above the rows. -/
def splitBlock (size : MixingSize) :
    WordBlock size ≃ (Fin size.bits → Fin size.surplus) × Matrix size.bits :=
  (blockRows size).trans <| (Equiv.piCongrRight fun _ => size.splitRow).trans <|
    (Equiv.arrowProdEquivProdArrow _ _ _).trans <|
      Equiv.prodCongr (Equiv.refl _) Matrix.equivRows.symm

theorem splitBlock_snd (block : WordBlock size) : (splitBlock size block).2 = ofBlock block :=
  Matrix.ext_row fun i => (Matrix.row_ofFn _ i).trans (row_ofBlock block i).symm

/-- Every matrix comes from the same number of blocks. -/
theorem ncard_ofBlock (m : Matrix size.bits) : {block | ofBlock block = m}.ncard = size.copies := by
  have blocks : {block | ofBlock block = m} = (splitBlock size).symm '' (Set.univ ×ˢ {m}) := by
    rw [Equiv.image_symm_eq_preimage]
    ext block
    simp [splitBlock_snd]
  rw [blocks, Set.ncard_image_of_injective _ (splitBlock size).symm.injective, Set.ncard_prod,
    Set.ncard_univ, Set.ncard_singleton, Nat.mul_one, Nat.card_fun, Nat.card_fin, Nat.card_fin,
    MixingSize.surplus_pow_bits]

end WhiteBox
