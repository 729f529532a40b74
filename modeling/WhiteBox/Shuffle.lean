import WhiteBox.Byte
import WhiteBox.BuildError

/-!
# Nibble shuffles

A `NibbleShuffle` is a permutation of the sixteen nibbles, kept as two tables that
undo each other.  The proofs that they do are part of the value, so no shuffle is
ever out of step with its inverse.

`NibbleShuffle.identity` leaves every nibble in place, and `NibbleShuffle.swap`
exchanges two entries of the forward table.  How a shuffle is made from any sixteen
bytes is in `WhiteBox.Shuffle.Table`.
-/

namespace WhiteBox

/-- All nibbles in order. -/
def Nibble.all : List Nibble := (List.range 16).map (BitVec.ofNat 4)

theorem Nibble.mem_all (x : Nibble) : x ∈ Nibble.all :=
  List.mem_map.2 ⟨x.toNat, List.mem_range.2 x.isLt, by rw [BitVec.ofNat_toNat, BitVec.setWidth_eq]⟩

theorem Nibble.nodup_all : Nibble.all.Nodup := by decide

/-- Sixteen nibbles, one for each nibble. -/
abbrev NibbleTable := Vector Nibble 16

/-- The entry of a table at a nibble. -/
def NibbleTable.lookup (t : NibbleTable) (x : Nibble) : Nibble :=
  have : x.toNat < 16 := x.isLt
  t[x.toNat]

/-- The table with the given entries. -/
def NibbleTable.tabulate (f : Nibble → Nibble) : NibbleTable :=
  Vector.ofFn fun i => f (BitVec.ofNat 4 i)

@[simp] theorem NibbleTable.lookup_tabulate (f : Nibble → Nibble) (x : Nibble) :
    NibbleTable.lookup (NibbleTable.tabulate f) x = f x := by
  simp only [NibbleTable.lookup, NibbleTable.tabulate, Vector.getElem_ofFn,
    BitVec.ofNat_toNat, BitVec.setWidth_eq]

/-- Two tables with the same entries are equal. -/
theorem NibbleTable.ext {s t : NibbleTable}
    (h : ∀ x, NibbleTable.lookup s x = NibbleTable.lookup t x) : s = t := by
  apply Vector.ext
  intro i hi
  have e := h (BitVec.ofNat 4 i)
  simp only [NibbleTable.lookup, BitVec.toNat_ofNat, Nat.mod_eq_of_lt hi] at e
  exact e

/-- On sixteen nibbles a table that is undone by another undoes it, too. -/
theorem NibbleTable.lookup_of_inverse {t inverse : NibbleTable}
    (h : ∀ x, inverse.lookup (t.lookup x) = x) (y : Nibble) : t.lookup (inverse.lookup y) = y := by
  have distinct : (Nibble.all.map t.lookup).Nodup := by
    refine List.pairwise_map.2 (List.Pairwise.imp ?_ Nibble.nodup_all)
    intro a b differ same
    exact differ (by rw [← h a, same, h])
  have mem : y ∈ Nibble.all.map t.lookup := by
    refine Decidable.byContradiction fun absent => ?_
    -- Seventeen distinct nibbles are too many.
    have longer : (y :: Nibble.all.map t.lookup).Nodup := List.nodup_cons.2 ⟨absent, distinct⟩
    have bound := longer.length_le_of_subset fun z _ => Nibble.mem_all z
    rw [List.length_cons, List.length_map] at bound
    exact Nat.not_succ_le_self _ bound
  obtain ⟨x, -, rfl⟩ := List.mem_map.1 mem
  rw [h]

/-- A permutation of the sixteen nibbles. -/
structure NibbleShuffle where
  /-- Entry `x` is where `x` goes. -/
  forward : NibbleTable
  /-- Entry `y` is where `y` comes from. -/
  inverse : NibbleTable
  /-- Going there and back changes nothing. -/
  inverse_forward : ∀ x, inverse.lookup (forward.lookup x) = x
  /-- Coming from there and going back changes nothing. -/
  forward_inverse : ∀ y, forward.lookup (inverse.lookup y) = y

namespace NibbleShuffle

/-- Where a nibble goes. -/
def encode (s : NibbleShuffle) (x : Nibble) : Nibble := s.forward.lookup x

/-- Where a nibble comes from. -/
def decode (s : NibbleShuffle) (y : Nibble) : Nibble := s.inverse.lookup y

@[simp] theorem decode_encode (s : NibbleShuffle) (x : Nibble) : s.decode (s.encode x) = x :=
  s.inverse_forward x

@[simp] theorem encode_decode (s : NibbleShuffle) (y : Nibble) : s.encode (s.decode y) = y :=
  s.forward_inverse y

/-- A shuffle is determined by its forward table. -/
theorem ext_forward {s t : NibbleShuffle} (h : s.forward = t.forward) : s = t := by
  have inv : s.inverse = t.inverse := by
    apply NibbleTable.ext
    intro y
    have e : s.encode (t.decode y) = y := by
      simp only [encode, h]
      exact t.encode_decode y
    have d := s.decode_encode (t.decode y)
    rw [e] at d
    exact d
  cases s; cases t
  simp only at h inv
  subst h; subst inv; rfl

instance : DecidableEq NibbleShuffle := fun s t =>
  if h : s.forward = t.forward then isTrue (ext_forward h)
  else isFalse fun e => h (congrArg forward e)

/-- Every nibble stays in place. -/
def identity : NibbleShuffle where
  forward := NibbleTable.tabulate id
  inverse := NibbleTable.tabulate id
  inverse_forward := by simp
  forward_inverse := by simp

/-- The exchange of two nibbles. -/
def exchange (i j x : Nibble) : Nibble := if x = i then j else if x = j then i else x

theorem exchange_exchange (i j x : Nibble) : exchange i j (exchange i j x) = x := by
  unfold exchange
  by_cases hi : x = i
  · subst hi
    by_cases hj : j = x
    · simp [hj]
    · simp [hj]
  · by_cases hj : x = j
    · simp [hj]
    · simp [hi, hj]

/-- Exchanges entries `i` and `j` of the forward table. -/
def swap (s : NibbleShuffle) (i j : Nibble) : NibbleShuffle where
  forward := NibbleTable.tabulate fun x => s.encode (exchange i j x)
  inverse := NibbleTable.tabulate fun y => exchange i j (s.decode y)
  inverse_forward := by simp [exchange_exchange]
  forward_inverse := by simp [exchange_exchange]

/-- The forward table as bytes. -/
def bytes (s : NibbleShuffle) : Vector Byte 16 := s.forward.map Byte.ofNibble

end NibbleShuffle

end WhiteBox
