import WhiteBox.Byte
import WhiteBox.BuildError

/-!
# Checked coordinates

A `Coordinate q` is a value of the quantity `q` that does not exceed its largest
one.  The only way in from a plain number is `Coordinate.ofNat`, which refuses
what is too large and never truncates (`Coordinate.ofNat_eq_ok_iff`,
`Coordinate.ofNat_eq_error_iff`).

The type keeps apart numbers that look alike: a byte position is not a nibble
position, and the two meet only in `BytePos.nibbles`, which names the two nibbles
that make up a byte.
-/

namespace WhiteBox

/-- A value of the quantity `q`, within its range. -/
structure Coordinate (q : Quantity) where
  /-- The plain number. -/
  val : Nat
  /-- It does not exceed the largest value. -/
  le_max : val ≤ q.max
  deriving DecidableEq, Repr

/-- Round of the network, at most 254. -/
abbrev Round := Coordinate .round

/-- Place in the state counted in bytes, at most 255. -/
abbrev BytePos := Coordinate .bytePosition

/-- Place in the state counted in nibbles, at most 255. -/
abbrev NibblePos := Coordinate .nibblePosition

/-- Number of XOR gates folded so far, at most 255. -/
abbrev Gate := Coordinate .gate

/-- Byte of the state that a mask table reads, at most 15. -/
abbrev MaskPosition := Coordinate .maskTablePosition

/-- Byte of the word that an inverse mixing table reads, at most 3. -/
abbrev MixingRow := Coordinate .mixingBijectionRow

namespace Coordinate

variable {q : Quantity}

@[ext] theorem ext {a b : Coordinate q} (h : a.val = b.val) : a = b := by
  cases a; cases b; cases h; rfl

/-- Checks a plain number against the range of the quantity. -/
def ofNat (q : Quantity) (value : Nat) : Except BuildError (Coordinate q) :=
  if h : value ≤ q.max then .ok ⟨value, h⟩ else .error (.outOfRange q value)

theorem ofNat_eq_ok_iff {value : Nat} {c : Coordinate q} :
    ofNat q value = .ok c ↔ value = c.val := by
  unfold ofNat
  split
  · rename_i h
    constructor
    · intro e; cases e; rfl
    · intro e; subst e; rfl
  · rename_i h
    constructor
    · intro e; cases e
    · intro e; exact absurd (e ▸ c.le_max) h

theorem ofNat_eq_error_iff {value : Nat} {e : BuildError} :
    ofNat q value = .error e ↔ q.max < value ∧ e = .outOfRange q value := by
  unfold ofNat
  split
  · rename_i h
    constructor
    · intro e; cases e
    · intro e; exact absurd h (Nat.not_le_of_lt e.1)
  · rename_i h
    constructor
    · intro e; cases e; exact ⟨Nat.lt_of_not_le h, rfl⟩
    · intro e; rw [e.2]

/-- The coordinate as one byte of a label. -/
def toByte (c : Coordinate q) : Byte := BitVec.ofNat 8 c.val

theorem toNat_toByte (c : Coordinate q) : c.toByte.toNat = c.val := by
  simp only [toByte, BitVec.toNat_ofNat]
  exact Nat.mod_eq_of_lt (Nat.lt_of_le_of_lt c.le_max q.max_lt)

/-- The order of coordinates is the order of their numbers. -/
def compare (a b : Coordinate q) : Ordering := Ord.compare a.val b.val

/-- The decimal digits of the number. -/
def text (c : Coordinate q) : String := toString c.val

end Coordinate

/-! ## From bytes to nibbles -/

/-- The nibble positions `2p` and `2p + 1` of byte `p`, the high half first. -/
def BytePos.nibbles (p : BytePos) : Except BuildError (NibblePos × NibblePos) := do
  let high ← Coordinate.ofNat .nibblePosition (2 * p.val)
  let low ← Coordinate.ofNat .nibblePosition (2 * p.val + 1)
  pure (high, low)

/-- The nibble positions of byte `i` of a word or block, the high half first. -/
def NibblePos.pair (i : Fin 16) : NibblePos × NibblePos :=
  (⟨2 * i, by have := i.isLt; simp only [Quantity.max]; omega⟩,
   ⟨2 * i + 1, by have := i.isLt; simp only [Quantity.max]; omega⟩)

/-- Byte `i` of a block, as a byte position. -/
def BytePos.ofFin (i : Fin 16) : BytePos :=
  ⟨i, by have := i.isLt; simp only [Quantity.max]; omega⟩

end WhiteBox
