import WhiteBox.Proofs.Encoding.BlockMask
import WhiteBox.Text.Describe

/-!
# Failures depend on numbers alone

What can fail for a context are its draws, the checks of numbers, and the checks of matrices.
The last ones never fail, since a matrix is drawn invertible.  So wherever the draws return,
each construction `Checks` a list of numbers that does not mention the context, and two contexts
fail together (`KeyContext.sameFailures`).

A block mask asks for its draws slot after slot.  A draw behind the first slot out of range is
never asked for, so it need not return.
-/

namespace WhiteBox

theorem MixingInverseTable.checks {mixing inverse : Matrix 32}
    (inverted : mixing.invert? = some inverse) (row : Nat) :
    Checks [(.mixingBijectionRow, row)] (ofMixing mixing row) fun _ => True := by
  have build : ofMixing mixing row =
      Coordinate.ofNat .mixingBijectionRow row >>= fun row => pure ⟨inverse, row⟩ := by
    rw [ofMixing, inverted]
    rfl
  rw [build]
  exact .cons fun row _ => .of_ok rfl trivial

namespace KeyContext

variable (ctx : KeyContext)

theorem checks_byteRound (round : Round) (position : BytePos) (surface : Surface) :
    Checks [(.nibblePosition, 2 * position.val), (.nibblePosition, 2 * position.val + 1)]
      (ctx.byteRound round position surface) fun _ => True := by
  have nibbles : Checks [(.nibblePosition, 2 * position.val),
      (.nibblePosition, 2 * position.val + 1)] position.nibbles fun _ => True :=
    .cons fun high _ => .cons fun low _ => .of_ok rfl trivial
  exact nibbles.bind_pure fun _ _ => trivial

variable {ctx}

theorem checks_boundaryMixing {position : Nat}
    (draws : ∀ slot : BytePos, slot.val = position → ctx.HasMixing none slot .byte) :
    Checks [(.bytePosition, position)] (ctx.boundaryMixing position) fun _ => True := by
  refine .cons fun slot h => ?_
  obtain ⟨m, drawn⟩ := exists_mixingBijection_iff.2 (draws slot h)
  obtain ⟨inverse, inverted⟩ := exists_invert?_of_mixingBijection drawn
  refine .of_ok (a := ⟨m, inverse, inverted⟩) ?_ trivial
  rw [drawn, ok_bind]
  exact ByteMixing.ofMatrix_matrix ⟨m, inverse, inverted⟩

/-- The numbers that a block mask checks: on the inside, the positions of all slots. -/
def blockMaskNumbers (shift : Fin 16 → Nat) : Surface → List (Quantity × Nat)
  | .outside => []
  | .inside => (List.finRange 16).map fun i => (.bytePosition, shift i)

/-- The draws that a block mask asks for return. -/
def BlockMaskDraws (ctx : KeyContext) (shift : Fin 16 → Nat) (surface : Surface) : Prop :=
  surface = .inside → ∀ i, (∀ j < i, shift j ≤ Quantity.bytePosition.max) →
    ∀ slot : BytePos, slot.val = shift i → ctx.HasMixing none slot .byte

theorem checks_blockMask {shift : Fin 16 → Nat} {surface : Surface}
    (draws : ctx.BlockMaskDraws shift surface) (position : BytePos) :
    Checks (blockMaskNumbers shift surface) (ctx.blockMask position surface shift)
      fun _ => True := by
  cases surface with
  | outside => exact .of_ok rfl trivial
  | inside =>
    have mixings : Checks (blockMaskNumbers shift .inside)
        (Vector.ofFnM fun i => ctx.boundaryMixing (shift i)) fun _ => True :=
      .ofFnM fun i before => checks_boundaryMixing (draws rfl i before)
    rw [blockMask_inside_eq]
    exact mixings.bind_pure fun _ _ => trivial

/-- Two contexts fail together. -/
structure SameFailures (a b : KeyContext) : Prop where
  blockMask : ∀ position surface shift,
    a.BlockMaskDraws shift surface → b.BlockMaskDraws shift surface →
      SameFailure (a.blockMask position surface shift) (b.blockMask position surface shift)
  byteRound : ∀ round position surface,
    SameFailure (a.byteRound round position surface) (b.byteRound round position surface)
  mixingTable : ∀ round position row ma mb, a.mixingBijection .word round position = .ok ma →
    b.mixingBijection .word round position = .ok mb →
      SameFailure (MixingInverseTable.ofMixing ma row) (MixingInverseTable.ofMixing mb row)

theorem sameFailures (a b : KeyContext) : SameFailures a b where
  blockMask position surface shift drawsA drawsB :=
    (checks_blockMask drawsA position).sameFailure (checks_blockMask drawsB position)
  byteRound round position surface :=
    (a.checks_byteRound round position surface).sameFailure
      (b.checks_byteRound round position surface)
  mixingTable round position row ma mb drawnA drawnB := by
    obtain ⟨_, invertedA⟩ := exists_invert?_of_mixingBijection drawnA
    obtain ⟨_, invertedB⟩ := exists_invert?_of_mixingBijection drawnB
    exact (MixingInverseTable.checks invertedA row).sameFailure
      (MixingInverseTable.checks invertedB row)

theorem describe_eq {a b : KeyContext} (h : a.seed.length = b.seed.length) :
    a.describe = b.describe := by
  rw [describe, describe, h]

end KeyContext

end WhiteBox
