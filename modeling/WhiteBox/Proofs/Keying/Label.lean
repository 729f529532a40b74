import Mathlib.Algebra.Group.Nat.Defs
import WhiteBox.Keystream
import WhiteBox.Proofs.Bytes

/-!
# Labels and key inputs are unambiguous

A label can be read back.  Its first byte, and its second where the first is shared, say
which kind of role it belongs to, and each coordinate has a byte of its own behind them
(`Role.ofLabel?`).  So no two roles share a label (`Role.label_inj`), and none of the
pairs of kinds has to be compared.  The one byte with two meanings is that of the round of a
mixing bijection, where `0xff` says that there is none; a round never reaches it.

What is hashed to a key starts with the length of the seed in eight bytes.  Below `2 ^ 64`
they tell the length (`KeyContext.littleEndian_lengthBytes`), and the length tells where the
seed ends and the label begins.
-/

namespace WhiteBox

/-! ## Reading a label -/

/-- The byte at a place of a label. -/
def Label.byteAt (l : Label) (i : Nat) : Byte := l.toList.getD i 0

theorem Label.byteAt_padded (bytes : List Byte) {i : Nat} (h : i < 16) :
    (padded bytes).byteAt i = bytes.getD i 0 := by
  simp [byteAt, padded, h]

/-- The coordinate that a byte of a label stands for. -/
def Coordinate.ofByte? (q : Quantity) (b : Byte) : Option (Coordinate q) :=
  if h : b.toNat ≤ q.max then some ⟨b.toNat, h⟩ else none

/-- The surface that a byte of a label stands for. -/
def Surface.ofTag? (b : Byte) : Option Surface :=
  if b = 0 then some .inside else if b = 1 then some .outside else none

/-- The width that a byte of a label stands for. -/
def MixingSize.ofByte? (b : Byte) : Option MixingSize :=
  if b = 8 then some .byte else if b = 32 then some .word else if b = 128 then some .block else none

theorem Coordinate.ofByte?_toByte {q : Quantity} (c : Coordinate q) :
    ofByte? q c.toByte = some c := by
  have fits : c.toByte.toNat ≤ q.max := c.toNat_toByte.symm ▸ c.le_max
  rw [ofByte?, dif_pos fits]
  exact congrArg some (ext c.toNat_toByte)

theorem Surface.ofTag?_tag (f : Surface) : ofTag? f.tag = some f := by
  cases f with
  | inside => rfl
  | outside => rfl

theorem MixingSize.ofByte?_bits (m : MixingSize) : ofByte? (BitVec.ofNat 8 m.bits) = some m := by
  cases m with
  | byte => rfl
  | word => rfl
  | block => rfl

namespace Role

/-- The round that a byte of a label stands for, if it is a byte of a round or of the mask
boundary. -/
def roundOfByte? (b : Byte) : Option (Option Round) :=
  if b = 0xff then some none else (Coordinate.ofByte? .round b).map some

/-- The byte of the mask boundary is no round. -/
theorem toByte_ne_boundary (r : Round) : r.toByte ≠ 0xff := by
  intro h
  have reached : r.val = 255 := by rw [← r.toNat_toByte, h]; rfl
  have bound : r.val ≤ 254 := r.le_max
  omega

theorem roundOfByte?_roundByte (round : Option Round) :
    roundOfByte? (roundByte round) = some round := by
  cases round with
  | none => rfl
  | some r => rw [roundByte, roundOfByte?, if_neg (toByte_ne_boundary r), r.ofByte?_toByte]; rfl

/-- The role that a label belongs to. -/
def ofLabel? (l : Label) : Option Role := do
  if l.byteAt 0 = 0x54 then
    pure (tyi (← Coordinate.ofByte? _ (l.byteAt 1)) (← Coordinate.ofByte? _ (l.byteAt 2))
      (← Coordinate.ofByte? _ (l.byteAt 3)))
  else if l.byteAt 0 = 0x58 then
    pure (xor (← Coordinate.ofByte? _ (l.byteAt 1)) (← Coordinate.ofByte? _ (l.byteAt 2))
      (← Coordinate.ofByte? _ (l.byteAt 3)) (← Surface.ofTag? (l.byteAt 4)))
  else if l.byteAt 0 = 0x52 then
    pure (round (← Coordinate.ofByte? _ (l.byteAt 1)) (← Coordinate.ofByte? _ (l.byteAt 2))
      (← Surface.ofTag? (l.byteAt 3)))
  else if l.byteAt 1 = 0x45 then
    pure (mask (← Coordinate.ofByte? _ (l.byteAt 2)) (← Coordinate.ofByte? _ (l.byteAt 3))
      (← Surface.ofTag? (l.byteAt 4)))
  else if l.byteAt 1 = 0x49 then
    pure (mbInverse (← Coordinate.ofByte? _ (l.byteAt 2)) (← Coordinate.ofByte? _ (l.byteAt 3))
      (← Coordinate.ofByte? _ (l.byteAt 4)))
  else
    pure (mixing (← MixingSize.ofByte? (l.byteAt 2)) (← roundOfByte? (l.byteAt 3))
      (← Coordinate.ofByte? _ (l.byteAt 4)))

/-- A label reads back as its role. -/
theorem ofLabel?_label (role : Role) : ofLabel? role.label = some role := by
  simp (disch := decide) only [ofLabel?, label, Label.byteAt_padded]
  cases role with
  | mask p s f => simp [labelStart, Coordinate.ofByte?_toByte, Surface.ofTag?_tag]
  | tyi r p s => simp [labelStart, Coordinate.ofByte?_toByte]
  | mbInverse r p s => simp [labelStart, Coordinate.ofByte?_toByte]
  | xor r p g f => simp [labelStart, Coordinate.ofByte?_toByte, Surface.ofTag?_tag]
  | round r p f => simp [labelStart, Coordinate.ofByte?_toByte, Surface.ofTag?_tag]
  | mixing m r p =>
    simp [labelStart, Coordinate.ofByte?_toByte, MixingSize.ofByte?_bits, roundOfByte?_roundByte]

theorem label_inj {r s : Role} : r.label = s.label ↔ r = s := by
  constructor
  · intro h
    have same : some r = some s := by rw [← ofLabel?_label r, h, ofLabel?_label s]
    exact Option.some.inj same
  · rintro rfl
    rfl

end Role

/-! ## Reading a key input -/

namespace KeyContext

theorem length_lengthBytes (n : Nat) : (lengthBytes n).length = 8 := by
  rw [lengthBytes, List.length_map, List.length_range]

/-- The eight bytes tell the length. -/
theorem littleEndian_lengthBytes {n : Nat} (h : n < 2 ^ 64) : littleEndian (lengthBytes n) = n := by
  refine Nat.eq_of_testBit_eq fun i => ?_
  rw [Bytes.testBit_littleEndian]
  by_cases hi : i < 64
  · have place : i / 8 < 8 := by omega
    have small : i % 8 < 8 := Nat.mod_lt i (by decide)
    have byte : (lengthBytes n).getD (i / 8) 0 = BitVec.ofNat 8 (n >>> (8 * (i / 8))) := by
      simp [lengthBytes, place]
    rw [byte, BitVec.getLsbD_ofNat, decide_eq_true small, Bool.true_and, Nat.testBit_shiftRight,
      Nat.div_add_mod]
  · have beyond : (lengthBytes n).length ≤ i / 8 := by rw [length_lengthBytes]; omega
    have high : n < 2 ^ i := Nat.lt_of_lt_of_le h (Nat.pow_le_pow_right (by decide) (by omega))
    rw [List.getD_eq_getElem?_getD, List.getElem?_eq_none beyond, Nat.testBit_lt_two_pow high]
    exact BitVec.getLsbD_zero

/-- Key inputs of seeds shorter than `2 ^ 64` agree only for one seed and one label. -/
theorem keyInput_inj {a b : KeyContext} (ha : a.seed.length < 2 ^ 64) (hb : b.seed.length < 2 ^ 64)
    {l m : Label} (h : a.keyInput l = b.keyInput m) : a.seed = b.seed ∧ l = m := by
  simp only [keyInput, List.append_assoc] at h
  obtain ⟨lengths, rest⟩ := List.append_inj h (by rw [length_lengthBytes, length_lengthBytes])
  have same : a.seed.length = b.seed.length := by
    rw [← littleEndian_lengthBytes ha, lengths, littleEndian_lengthBytes hb]
  obtain ⟨seeds, labels⟩ := List.append_inj rest same
  exact ⟨seeds, Vector.toList_inj.1 labels⟩

/-- Keys are separated: no two roles share a label, and no two pairs of a seed and a role
share the byte string that is hashed to their key. -/
theorem keyInput_eq_iff :
    Function.Injective Role.label ∧
      ∀ a b : KeyContext, a.seed.length < 2 ^ 64 → b.seed.length < 2 ^ 64 → ∀ r s : Role,
        a.keyInput r.label = b.keyInput s.label ↔ a.seed = b.seed ∧ r = s := by
  refine ⟨fun _ _ => Role.label_inj.1, fun a b ha hb r s => ⟨fun h => ?_, ?_⟩⟩
  · obtain ⟨seeds, labels⟩ := keyInput_inj ha hb h
    exact ⟨seeds, Role.label_inj.1 labels⟩
  · rintro ⟨seeds, rfl⟩
    rw [keyInput, keyInput, seeds]

/-- A seed that goes on with the first bytes of a label, and the last round beside the mask
boundary. -/
theorem keyInput_eq_iff_boundary :
    (KeyContext.mk [0x16]).seed.length < 2 ^ 64 ∧
      (KeyContext.mk [0x16, 0x4d, 0x42]).seed.length < 2 ^ 64 ∧
      keyInput ⟨[0x16]⟩ (Role.mixing .byte none ⟨9, by decide⟩).label ≠
        keyInput ⟨[0x16, 0x4d, 0x42]⟩ (Role.mixing .byte none ⟨9, by decide⟩).label ∧
      keyInput ⟨[0x16]⟩ (Role.mixing .byte none ⟨9, by decide⟩).label ≠
        keyInput ⟨[0x16]⟩ (Role.mixing .byte (some ⟨254, by decide⟩) ⟨9, by decide⟩).label := by
  have short : (KeyContext.mk [0x16]).seed.length < 2 ^ 64 := by decide
  have long : (KeyContext.mk [0x16, 0x4d, 0x42]).seed.length < 2 ^ 64 := by decide
  refine ⟨short, long, fun h => ?_, fun h => ?_⟩
  · have seeds := ((keyInput_eq_iff.2 _ _ short long _ _).1 h).1
    cases seeds
  · have roles := ((keyInput_eq_iff.2 _ _ short short _ _).1 h).2
    cases roles

end KeyContext

end WhiteBox
