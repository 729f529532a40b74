import WhiteBox.Byte

/-!
# Maps between the byte slots of a state

A `SlotMap` says which slot each slot takes its byte from.  The state is stored
column after column, byte `4c + r` being row `r` of column `c`, and
`SlotMap.shiftRows` rotates row `r` by `r` columns to the left.

A map is either the identity on all numbers or a list of sixteen numbers.  Asking
a list for slot sixteen or above is a `SlotError`, and so is moving a block along a
list that names such a slot.
-/

namespace WhiteBox

/-- A slot was asked for that a list of sixteen does not have. -/
structure SlotError where
  /-- The slot that was asked for. -/
  index : Nat
  deriving DecidableEq, Repr

/-- The text that reports the slot. -/
def SlotError.message (e : SlotError) : String :=
  s!"index out of bounds: the len is 16 but the index is {e.index}"

/-- Where each slot takes its byte from. -/
inductive SlotMap where
  /-- Every number stays as it is. -/
  | identity
  /-- Slot `i` takes the byte of the slot that entry `i` names. -/
  | listed (slots : Vector Nat 16)
  deriving DecidableEq, Repr

namespace SlotMap

/-- Row `r` moves `r` columns to the left. -/
def shiftRows : SlotMap := .listed #v[0, 5, 10, 15, 4, 9, 14, 3, 8, 13, 2, 7, 12, 1, 6, 11]

/-- Row `r` moves `r` columns to the right. -/
def invShiftRows : SlotMap := .listed #v[0, 13, 10, 7, 4, 1, 14, 11, 8, 5, 2, 15, 12, 9, 6, 3]

/-- The source of one of the sixteen slots. -/
def slot : SlotMap → Fin 16 → Nat
  | identity, i => i
  | listed slots, i => slots.get i

/-- The source of the slot with the given number. -/
def source (m : SlotMap) (i : Nat) : Except SlotError Nat :=
  match m with
  | identity => .ok i
  | listed slots => if h : i < 16 then .ok (slots.get ⟨i, h⟩) else .error ⟨i⟩

/-- The block whose byte `i` is the byte of the slot that slot `i` takes it from. -/
def move (m : SlotMap) (s : Block) : Except SlotError Block :=
  Vector.ofFnM fun i =>
    if h : m.slot i < 16 then .ok (s.get ⟨m.slot i, h⟩) else .error ⟨m.slot i⟩

end SlotMap

end WhiteBox
