import WhiteBox.Proofs.Build
import WhiteBox.Proofs.Matrix.Bytes
import WhiteBox.Proofs.Matrix.Group

/-!
# The tables of a matrix

What a matrix makes of a word with one set bit is a column (`Matrix.apply_twoPow`).  A byte
alone at place `p` of a vector has its bit `b` at bit `8p + b` of the word, so the table of
place `p` answers the sum of the columns `8p + b` over the set bits `b` of its argument
(`Matrix.applyToBytes_single`).  The tables of all places together add up to the matrix.

If the matrix is invertible then no table answers the same twice, and neither does the sum of
the tables.  Both are the matrix on values that differ.

`Matrix.Decomposes` and `Matrix.Separates` collect these laws.  They hold of the mask tables of
every matrix on blocks and of the mixing tables of every matrix on columns
(`Matrix.tables_decompose`).
-/

namespace WhiteBox

/-! ## Sums over the set bits of a word -/

namespace Bytes

variable {k n : Nat}

theorem xor_self (v : Vector Byte k) : v ^^^ v = zero :=
  Vector.ext fun i hi => by rw [getElem_xor, getElem_zero]; exact BitVec.xor_self

theorem xor_comm (u v : Vector Byte k) : u ^^^ v = v ^^^ u :=
  Vector.ext fun i hi => by rw [getElem_xor, getElem_xor, BitVec.xor_comm]

/-- What takes sums of words to sums is the sum of what it makes of the set bits. -/
theorem eq_sum_setBits {f : BitVec n → Vector Byte k} (map_xor : ∀ u v, f (u ^^^ v) = f u ^^^ f v)
    (v : BitVec n) : f v = sum ((setBits v).map fun b : Fin n => f (BitVec.twoPow n b)) := by
  induction v using setBits.induct with
  | case1 =>
    have twice := map_xor 0#n 0#n
    rw [xor_self, BitVec.xor_self] at twice
    rw [setBits, dif_pos rfl, List.map_nil, sum_nil, twice]
  | case2 v nonzero ih =>
    rw [setBits, dif_neg nonzero, List.map_cons, sum_cons, ← ih, ← map_xor, BitVec.xor_comm,
      clearLowest_xor_twoPow nonzero]

/-! ## Bytes at their places -/

theorem single_xor (place : Nat) (a b : Byte) :
    (single place (a ^^^ b) : Vector Byte k) = single place a ^^^ single place b := by
  refine Vector.ext fun i hi => ?_
  rw [getElem_xor, getElem_single, getElem_single, getElem_single]
  split
  · rfl
  · exact BitVec.xor_self.symm

theorem single_injective (p : Fin k) :
    Function.Injective (single p.val : Byte → Vector Byte k) := by
  intro a b same
  have byte : (single p.val a : Vector Byte k)[p.val] = (single p.val b)[p.val] := by rw [same]
  rwa [getElem_single, getElem_single, if_pos rfl, if_pos rfl] at byte

/-- Bit `b` of the byte at place `p` is bit `8p + b` of the word. -/
theorem toWord_single_twoPow (p : Fin k) (b : Fin 8) :
    toWord (8 * k) (single p.val (BitVec.twoPow 8 b) : Vector Byte k) =
      BitVec.twoPow (8 * k) (8 * p + b) := by
  refine BitVec.eq_of_getLsbD_eq fun i hi => ?_
  have fits : 8 * p.val + b.val < 8 * k := by omega
  rw [getLsbD_toWord _ i hi (by omega), getElem_single, BitVec.getLsbD_twoPow, decide_eq_true fits,
    Bool.true_and]
  split
  · rename_i here
    rw [BitVec.getLsbD_twoPow, decide_eq_true b.isLt, Bool.true_and]
    exact decide_eq_decide.2 (by omega)
  · rename_i elsewhere
    have other : ¬ 8 * p.val + b.val = i := by omega
    rw [decide_eq_false other]
    exact BitVec.getLsbD_zero

end Bytes

/-! ## Columns -/

namespace Matrix

/-- Column `j`, as the word whose bit `i` is entry `(i, j)`. -/
def column {n : Nat} (m : Matrix n) (j : Fin n) : BitVec n := ofBits fun i => m.entry i j

theorem apply_twoPow {n : Nat} (m : Matrix n) (j : Fin n) :
    m.apply (BitVec.twoPow n j) = m.column j := by
  refine word_ext fun i => ?_
  rw [getLsbD_apply_twoPow, column, BitVec.getLsbD_eq_getElem i.isLt, getElem_ofBits]

variable {k : Nat}

theorem applyToBytes_injective {m : Matrix (8 * k)} (invertible : m.isInvertible = true) :
    Function.Injective (m.applyToBytes : Vector Byte k → Vector Byte k) := by
  obtain ⟨inverse, found⟩ := isInvertible_iff.1 invertible
  exact Function.LeftInverse.injective (applyToBytes_invert? found)

/-- A matrix on one byte alone is the sum of the columns that the byte selects. -/
theorem applyToBytes_single (m : Matrix (8 * k)) (p : Fin k) (b : Byte) :
    m.applyToBytes (Bytes.single p.val b : Vector Byte k) =
      Bytes.sum ((setBits b).map fun bit : Fin 8 =>
        Bytes.ofWord k (m.column ⟨8 * p + bit, by omega⟩)) := by
  let entry (b : Byte) : Vector Byte k := m.applyToBytes (Bytes.single p.val b)
  have linear (u v : Byte) : entry (u ^^^ v) = entry u ^^^ entry v := by
    show m.applyToBytes _ = _
    rw [Bytes.single_xor, m.linear_applyToBytes.map_xor]
  refine (Bytes.eq_sum_setBits linear b).trans ?_
  refine congrArg Bytes.sum (List.map_congr_left fun bit _ => ?_)
  show Bytes.ofWord k (m.apply (Bytes.toWord (8 * k) _)) = _
  rw [Bytes.toWord_single_twoPow]
  exact congrArg (Bytes.ofWord k) (m.apply_twoPow ⟨8 * p + bit, by omega⟩)

/-! ## Tables -/

/-- One table for each byte of a vector, and what they have to do with a matrix on the whole
vector. -/
structure Decomposes (m : Matrix (8 * k)) (tables : Fin k → ByteTable (Vector Byte k)) : Prop where
  /-- What the tables answer on the bytes of a vector adds up to the matrix on the vector. -/
  sum_tables : ∀ v : Vector Byte k,
    Bytes.sum ((List.finRange k).map fun p => tables p (v.get p)) = m.applyToBytes v
  /-- An entry is the sum of the columns at the set bits of the byte. -/
  eq_sum_columns : ∀ (p : Fin k) (b : Byte), tables p b =
    Bytes.sum ((setBits b).map fun bit : Fin 8 =>
      Bytes.ofWord k (m.column ⟨8 * p + bit, by omega⟩))
  /-- A table takes sums to sums. -/
  map_xor : ∀ (p : Fin k) (a b : Byte), tables p (a ^^^ b) = tables p a ^^^ tables p b

/-- Tables that keep apart what they are given. -/
structure Separates (tables : Fin k → ByteTable (Vector Byte k)) : Prop where
  /-- No entry of a table occurs twice. -/
  nodup_tabulate : ∀ p, (tables p).tabulate.toList.Nodup
  /-- No two vectors have the same sum. -/
  eq_of_sum_eq : ∀ u v : Vector Byte k,
    Bytes.sum ((List.finRange k).map fun p => tables p (u.get p)) =
      Bytes.sum ((List.finRange k).map fun p => tables p (v.get p)) → u = v

theorem decomposes (m : Matrix (8 * k)) :
    m.Decomposes fun p b => m.applyToBytes (Bytes.single p.val b : Vector Byte k) where
  sum_tables := sum_applyToBytes_part m
  eq_sum_columns := applyToBytes_single m
  map_xor p a b := by rw [Bytes.single_xor, m.linear_applyToBytes.map_xor]

theorem separates {m : Matrix (8 * k)} (invertible : m.isInvertible = true) :
    Separates fun p b => m.applyToBytes (Bytes.single p.val b : Vector Byte k) where
  nodup_tabulate p := by
    rw [ByteTable.tabulate, Vector.toList_ofFn, List.nodup_ofFn]
    intro i j same
    have bytes := Bytes.single_injective p (applyToBytes_injective invertible same)
    exact Fin.ext (congrArg BitVec.toNat bytes)
  eq_of_sum_eq u v same := by
    rw [m.decomposes.sum_tables, m.decomposes.sum_tables] at same
    exact applyToBytes_injective invertible same

/-- The mask tables of a matrix on blocks take it apart, and so do the mixing tables of a matrix
on columns.  The tables of an invertible matrix keep apart what they are given. -/
theorem tables_decompose (a : Matrix 128) (b : Matrix 32) :
    (∃ tables : Fin 16 → MaskTable, (∀ p, MaskTable.build a p.val = .ok (tables p)) ∧
        Decomposes (k := 16) a (fun p => (tables p).table) ∧
        (a.isInvertible = true → Separates (k := 16) fun p => (tables p).table)) ∧
      ∃ tables : Fin 4 → MixingInverseTable,
        (∀ p, MixingInverseTable.build b p.val = .ok (tables p)) ∧
        Decomposes (k := 4) b (fun p => (tables p).table) ∧
        (b.isInvertible = true → Separates (k := 4) fun p => (tables p).table) := by
  constructor
  · exact ⟨fun p => ⟨a, ⟨p.val, Nat.le_of_lt_succ p.isLt⟩⟩,
      fun p => MaskTable.build_eq_ok (Nat.le_of_lt_succ p.isLt),
      decomposes (k := 16) a, separates (k := 16)⟩
  · exact ⟨fun p => ⟨b, ⟨p.val, Nat.le_of_lt_succ p.isLt⟩⟩,
      fun p => MixingInverseTable.build_eq_ok (Nat.le_of_lt_succ p.isLt),
      decomposes (k := 4) b, separates (k := 4)⟩

/-- The low half of a block added to its high half, and bit 24 of a column added to bit 7. -/
theorem tables_decompose_halves :
    (ofMap fun v : BitVec 128 => v ^^^ v <<< 64).isInvertible = true ∧
      (flip .identity 7 24 : Matrix 32).isInvertible = true ∧
      (∃ tables : Fin 16 → MaskTable,
        (∀ p, MaskTable.build (ofMap fun v => v ^^^ v <<< 64) p.val = .ok (tables p)) ∧
        ∀ p, (tables p).table.tabulate.toList.Nodup) ∧
      ∃ tables : Fin 4 → MixingInverseTable,
        (∀ p, MixingInverseTable.build (flip .identity 7 24) p.val = .ok (tables p)) ∧
        ∀ p, (tables p).table.tabulate.toList.Nodup := by
  have linear : Word.Linear fun v : BitVec 128 => v ^^^ v <<< 64 := fun u v => by
    show (u ^^^ v) ^^^ (u ^^^ v) <<< 64 = (u ^^^ u <<< 64) ^^^ (v ^^^ v <<< 64)
    rw [BitVec.shiftLeft_xor_distrib]
    generalize u <<< 64 = high, v <<< 64 = high'
    ac_rfl
  -- The low half that is added a second time cancels, and shifted twice it is gone.
  have twice (v : BitVec 128) : (v ^^^ v <<< 64) ^^^ (v ^^^ v <<< 64) <<< 64 = v := by
    have gone : v <<< (64 + 64) = 0#128 := BitVec.shiftLeft_eq_zero (by decide)
    rw [BitVec.shiftLeft_xor_distrib, ← BitVec.shiftLeft_add, gone, BitVec.xor_zero,
      BitVec.xor_assoc, BitVec.xor_self, BitVec.xor_zero]
  have involution : (ofMap fun v : BitVec 128 => v ^^^ v <<< 64).mul
      (ofMap fun v => v ^^^ v <<< 64) = identity := ext_apply fun v => by
    rw [apply_mul, apply_ofMap linear, apply_ofMap linear, twice, apply_identity]
  have block : (ofMap fun v : BitVec 128 => v ^^^ v <<< 64).isInvertible = true :=
    isInvertible_iff.2 ⟨_, invert?_eq_some_iff.2 involution⟩
  have column : (flip .identity 7 24 : Matrix 32).isInvertible = true := by decide +kernel
  obtain ⟨⟨masks, built, -, masked⟩, ⟨mixings, built', -, mixed⟩⟩ :=
    tables_decompose (ofMap fun v => v ^^^ v <<< 64) (flip .identity 7 24)
  exact ⟨block, column, ⟨masks, built, (masked block).nodup_tabulate⟩,
    ⟨mixings, built', (mixed column).nodup_tabulate⟩⟩

end Matrix

end WhiteBox
