import Mathlib.Data.List.Perm.Basic
import WhiteBox.Proofs.Gate

/-!
# Trees of encoded XOR gates

Gates can be put together to a tree of any shape.  A leaf is a nibble that its own shuffle
encodes.  A gate takes the output wires of two trees, unpacks each with the shuffle of the gate
or leaf that drives it, and encodes the sum with a shuffle of its own.

By induction on the tree the output carries the sum of the leaves
(`GateTree.carries_output`).  The same holds of every wire within, which therefore is a nibble
and sets no bit outside its half of the next gate's input (`GateTree.exists_carries`).

A sum does not see the order of its terms (`Nibble.sum_perm`).  So what is read off the output
depends on the leaves alone: not on how the gates are arranged, not on the order of the leaves,
and not on any shuffle (`GateTree.read_output`).
-/

namespace WhiteBox

/-! ## Sums of nibbles -/

theorem Nibble.sum_append (l r : List Nibble) :
    Nibble.sum (l ++ r) = Nibble.sum l ^^^ Nibble.sum r := by
  induction l with
  | nil => rw [List.nil_append, sum_nil, BitVec.zero_xor]
  | cons x l ih => rw [List.cons_append, sum_cons, sum_cons, ih, BitVec.xor_assoc]

/-- The order of the terms does not matter. -/
theorem Nibble.sum_perm {l r : List Nibble} (h : l.Perm r) : Nibble.sum l = Nibble.sum r :=
  h.foldr_eq 0

/-! ## Trees -/

/-- Gates over encoded leaves. -/
inductive GateTree where
  /-- A nibble and the shuffle that encodes it. -/
  | leaf (encoding : NibbleShuffle) (value : Nibble)
  /-- A gate on the outputs of two trees, and the shuffle that encodes its sum. -/
  | gate (out : NibbleShuffle) (left right : GateTree)

namespace GateTree

/-- The wire that leaves the tree. -/
def output : GateTree → Wire
  | leaf encoding value => ⟨encoding, encoding.onBytes.encode (Byte.ofNibble value)⟩
  | gate out left right => left.output.gate right.output out

/-- All wires of the tree, its output among them. -/
def wires : GateTree → List Wire
  | leaf encoding value => [(leaf encoding value).output]
  | gate out left right => (gate out left right).output :: (left.wires ++ right.wires)

/-- The nibbles at the leaves, from left to right. -/
def leaves : GateTree → List Nibble
  | leaf _ value => [value]
  | gate _ left right => left.leaves ++ right.leaves

/-! ## What the wires carry -/

/-- The output carries the sum of the leaves. -/
theorem carries_output (t : GateTree) : t.output.Carries (Nibble.sum t.leaves) := by
  induction t with
  | leaf encoding value =>
    have sum : Nibble.sum (leaf encoding value).leaves = value := BitVec.xor_zero
    show Byte.ofNibble (encoding.encode (Byte.low (Byte.ofNibble value))) = _
    rw [Byte.low_ofNibble, sum]
    rfl
  | gate out left right hl hr =>
    rw [leaves, Nibble.sum_append]
    exact hl.gate hr out

/-- Every wire carries some nibble. -/
theorem exists_carries (t : GateTree) {w : Wire} (h : w ∈ t.wires) : ∃ x, w.Carries x := by
  induction t with
  | leaf encoding value =>
    obtain rfl := List.mem_singleton.1 h
    exact ⟨_, carries_output _⟩
  | gate out left right hl hr =>
    rcases List.mem_cons.1 h with rfl | within
    · exact ⟨_, carries_output _⟩
    · exact (List.mem_append.1 within).elim hl hr

/-- No wire of a tree of gates sets a high bit.  What is read off the output is the sum of the
leaves, so all trees over the same leaves read the same, whatever their shape, the order of the
leaves and the shuffles. -/
theorem read_output (t : GateTree) :
    (∀ w ∈ t.wires, w.byte < 16) ∧
      t.output.read = Byte.ofNibble (Nibble.sum t.leaves) ∧
      ∀ other : GateTree, other.leaves.Perm t.leaves → other.output.read = t.output.read := by
  refine ⟨fun w h => ?_, t.carries_output.read, fun other same => ?_⟩
  · obtain ⟨x, carries⟩ := t.exists_carries h
    rw [carries]
    exact Byte.ofNibble_lt _
  · rw [other.carries_output.read, t.carries_output.read, Nibble.sum_perm same]

/-- A chain and a balanced tree over the same four leaves in different order. -/
theorem read_output_balanced :
    [0x3, 0x9, 0xc, 0x5].Perm [(0x5 : Nibble), 0xc, 0x9, 0x3] ∧
      (gate .identity (gate (.swap .identity 2 7) (leaf .identity 0x3) (leaf .identity 0x9))
        (gate .identity (leaf (.swap .identity 12 1) 0xc) (leaf .identity 0x5))).output.read =
      (gate (.swap .identity 0 15)
        (gate .identity (gate .identity (leaf .identity 0x5) (leaf .identity 0xc))
          (leaf (.swap .identity 9 4) 0x9))
        (leaf .identity 0x3)).output.read := by
  have same : [0x3, 0x9, 0xc, 0x5].Perm [(0x5 : Nibble), 0xc, 0x9, 0x3] := by decide
  exact ⟨same, (read_output _).2.2 _ same⟩

end GateTree

end WhiteBox
