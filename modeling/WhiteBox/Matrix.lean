import WhiteBox.Byte

/-!
# Matrices over two elements

`Matrix n` is a square matrix whose entries are bits, kept as one word per row:
bit `j` of row `i` is entry `(i, j)`.  Words are column vectors, bit `j` meeting
column `j`.

A matrix acts on words by `Matrix.apply`: bit `i` of the result is the parity of
row `i` under the word.  The product `Matrix.mul` has as row `i` the sum of the
rows of the right factor that row `i` of the left factor selects.  Sums of words
are exclusive ors.

Two of the functions on words underneath (`parity`, `ofBits`) recurse on a number of
bits and are pinned down bit by bit.  The third, `combination`, adds up the rows at the
set bits of a word.  It finds them by clearing the lowest one until none is left
(`setBits`), so a sparse row costs little.
-/

namespace WhiteBox

/-! ## Words bit by bit -/

/-- Whether an odd number of the bits below `k` is set. -/
def parityBelow {n : Nat} (v : BitVec n) : Nat → Bool
  | 0 => false
  | k + 1 => parityBelow v k ^^ v.getLsbD k

/-- Whether an odd number of bits is set. -/
def parity {n : Nat} (v : BitVec n) : Bool := parityBelow v n

theorem parityBelow_xor {n : Nat} (u v : BitVec n) (k : Nat) :
    parityBelow (u ^^^ v) k = (parityBelow u k ^^ parityBelow v k) := by
  induction k with
  | zero => rfl
  | succ k ih =>
    simp only [parityBelow, ih, BitVec.getLsbD_xor]
    cases parityBelow u k <;> cases parityBelow v k <;> cases u.getLsbD k <;> simp

/-- Parity is additive. -/
theorem parity_xor {n : Nat} (u v : BitVec n) : parity (u ^^^ v) = (parity u ^^ parity v) :=
  parityBelow_xor u v n

/-- The number whose bits below `k` are given and whose bits from `k` on are those of
`high`. -/
def bitsOnto {n : Nat} (f : Fin n → Bool) : (k : Nat) → k ≤ n → Nat → Nat
  | 0, _, high => high
  | k + 1, h, high => bitsOnto f k (Nat.le_of_succ_le h) (2 * high + (f ⟨k, h⟩).toNat)

/-- The word with the given bits. -/
def ofBits {n : Nat} (f : Fin n → Bool) : BitVec n :=
  BitVec.ofNat n (bitsOnto f n (Nat.le_refl n) 0)

theorem testBit_bitsOnto {n : Nat} (f : Fin n → Bool) (k : Nat) (h : k ≤ n) (high i : Nat)
    (hi : i < n) :
    (bitsOnto f k h high).testBit i = if i < k then f ⟨i, hi⟩ else high.testBit (i - k) := by
  induction k generalizing high with
  | zero => simp [bitsOnto]
  | succ k ih =>
    rw [bitsOnto, ih]
    by_cases hlt : i < k
    · rw [if_pos hlt, if_pos (Nat.lt_succ_of_lt hlt)]
    · rw [if_neg hlt]
      by_cases heq : i = k
      · subst heq
        rw [if_pos (Nat.lt_succ_self i), Nat.sub_self]
        cases f ⟨i, hi⟩ <;> simp [Nat.testBit_zero, Nat.add_mod]
      · rw [if_neg (by omega)]
        obtain ⟨j, hj⟩ : ∃ j, i - k = j + 1 := ⟨i - k - 1, by omega⟩
        have half : (2 * high + (f ⟨k, h⟩).toNat) / 2 = high := by
          have bound : (f ⟨k, h⟩).toNat < 2 := Bool.toNat_lt _
          omega
        rw [hj, Nat.testBit_add_one, half]
        congr 1
        omega

/-- Bit `i` of the word is the given one. -/
@[simp] theorem getElem_ofBits {n : Nat} (f : Fin n → Bool) (i : Nat) (hi : i < n) :
    (ofBits f)[i] = f ⟨i, hi⟩ := by
  rw [← BitVec.getLsbD_eq_getElem hi, ofBits, BitVec.getLsbD_ofNat, decide_eq_true hi,
    Bool.true_and, testBit_bitsOnto f n (Nat.le_refl n) 0 i hi, if_pos hi]

theorem toNat_sub_one {n : Nat} {v : BitVec n} (h : v ≠ 0#n) : (v - 1).toNat = v.toNat - 1 := by
  have pos : 0 < v.toNat := Nat.pos_of_ne_zero fun e => h (BitVec.eq_of_toNat_eq e)
  have one : (1 : BitVec n).toNat = 1 := Nat.mod_eq_of_lt (Nat.lt_of_le_of_lt pos v.isLt)
  have le : 1 ≤ v := by
    rw [BitVec.le_def, one]
    exact pos
  rw [BitVec.toNat_sub_of_le le, one]

/-- A word without its lowest set bit. -/
def clearLowest {n : Nat} (v : BitVec n) : BitVec n := v &&& (v - 1)

theorem toNat_clearLowest_lt {n : Nat} {v : BitVec n} (h : v ≠ 0#n) :
    (clearLowest v).toNat < v.toNat := by
  have pos : 0 < v.toNat := Nat.pos_of_ne_zero fun e => h (BitVec.eq_of_toNat_eq e)
  rw [clearLowest, BitVec.toNat_and, toNat_sub_one h]
  exact Nat.lt_of_le_of_lt Nat.and_le_right (Nat.sub_one_lt_of_lt pos)

/-- The set bits of a word, lowest first. -/
def setBits {n : Nat} (v : BitVec n) : List (Fin n) :=
  if h : v = 0#n then []
  else ⟨v.ctz.toNat, BitVec.lt_of_getLsbD (BitVec.getLsbD_true_ctz_of_ne_zero h)⟩ ::
    setBits (clearLowest v)
termination_by v.toNat
decreasing_by exact toNat_clearLowest_lt h

/-- The sum of the rows that the bits of a word select. -/
def combination {n : Nat} (selected : BitVec n) (rows : Vector (BitVec n) n) : BitVec n :=
  (setBits selected).foldl (fun sum i => sum ^^^ rows.get i) 0

/-! ## Matrices -/

/-- A square matrix of bits, one word per row. -/
structure Matrix (n : Nat) where
  /-- Bit `j` of row `i` is entry `(i, j)`. -/
  rows : Vector (BitVec n) n
  deriving DecidableEq

namespace Matrix

variable {n : Nat}

/-- Row `i`. -/
def row (m : Matrix n) (i : Fin n) : BitVec n := m.rows.get i

@[simp] theorem row_ofFn (f : Fin n → BitVec n) (i : Fin n) :
    (⟨Vector.ofFn f⟩ : Matrix n).row i = f i := by
  simp only [row, Vector.get, Vector.toArray_ofFn, Array.getElem_ofFn]
  rfl

/-- Entry `(i, j)`. -/
def entry (m : Matrix n) (i j : Fin n) : Bool := (m.row i).getLsbD j

/-- The matrix with the given entries. -/
def ofEntries (f : Fin n → Fin n → Bool) : Matrix n := ⟨Vector.ofFn fun i => ofBits (f i)⟩

@[simp] theorem entry_ofEntries (f : Fin n → Fin n → Bool) (i j : Fin n) :
    (ofEntries f).entry i j = f i j := by
  simp [entry, ofEntries]

/-- Two matrices with the same entries are equal. -/
theorem ext_entry {a b : Matrix n} (h : ∀ i j, a.entry i j = b.entry i j) : a = b := by
  cases a with
  | mk ra => cases b with
    | mk rb =>
      congr 1
      apply Vector.ext
      intro i hi
      apply BitVec.eq_of_getElem_eq
      intro j hj
      exact h ⟨i, hi⟩ ⟨j, hj⟩

/-- The matrix without a set entry. -/
def zero : Matrix n := ⟨Vector.replicate n 0⟩

/-- The matrix whose set entries are those on the diagonal. -/
def identity : Matrix n := ⟨Vector.ofFn fun i => BitVec.twoPow n i⟩

theorem entry_identity (i j : Fin n) : (identity : Matrix n).entry i j = decide (i = j) := by
  simp [entry, identity, Fin.ext_iff, eq_comm]

/-- Toggles entry `(i, j)`. -/
def flip (m : Matrix n) (i j : Fin n) : Matrix n :=
  ⟨m.rows.set i (m.row i ^^^ BitVec.twoPow n j) i.isLt⟩

/-- Applies the matrix to a column vector. -/
def apply (m : Matrix n) (v : BitVec n) : BitVec n := ofBits fun i => parity (m.row i &&& v)

@[simp] theorem getElem_apply (m : Matrix n) (v : BitVec n) (i : Nat) (hi : i < n) :
    (m.apply v)[i] = parity (m.row ⟨i, hi⟩ &&& v) := by
  simp [apply]

/-- A matrix acts linearly. -/
theorem apply_xor (m : Matrix n) (u v : BitVec n) :
    m.apply (u ^^^ v) = m.apply u ^^^ m.apply v := by
  ext i hi
  have distrib (r : BitVec n) : r &&& (u ^^^ v) = (r &&& u) ^^^ (r &&& v) := by
    ext j hj
    simp only [BitVec.getElem_and, BitVec.getElem_xor]
    cases r[j] <;> simp
  simp only [BitVec.getElem_xor, getElem_apply, distrib, parity_xor]

/-- The product, whose right factor acts first. -/
def mul (a b : Matrix n) : Matrix n := ⟨a.rows.map fun row => combination row b.rows⟩

/-- Applies the matrix to the bytes of a wide value, byte `k` holding bits
`8k..8k + 8`. -/
def applyToBytes {k : Nat} (m : Matrix n) (bytes : Vector Byte k) : Vector Byte k :=
  Bytes.ofWord k (m.apply (Bytes.toWord n bytes))

end Matrix

end WhiteBox
