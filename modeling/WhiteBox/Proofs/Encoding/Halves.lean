import Mathlib.Data.FinEnum
import WhiteBox.Proofs.Encoding.Lawful

/-!
# When a byte of two halves comes back

The parts of `Encoding.concat` may be any byte encodings.  Whether a byte comes back depends on
what each part does to a nibble when its answers are cut down to nibbles, and on nothing else:
the two halves of the byte go through `Encoding.onNibbles` of their parts and never meet
(`Encoding.concat_decode_encode`).  So the byte comes back exactly if each nibble does, in either
part (`Encoding.concat_comesBack_iff`).

There are finitely many nibbles, so a decoder that undoes its encoder is undone by it, too
(`Encoding.Lawful.of_decode_encode`).
-/

namespace WhiteBox.Encoding

/-! ## Finitely many values -/

section Finite

variable {α : Type} {e : Encoding α}

/-- On finitely many values it is enough to decode what was encoded. -/
theorem Lawful.of_decode_encode [Finite α] (h : ∀ v, e.decode (e.encode v) = v) : e.Lawful where
  decode_encode := h
  encode_decode := by
    have back : Function.LeftInverse e.decode e.encode := h
    -- No two values are encoded alike, so every value is the code of one.
    exact back.rightInverse_of_surjective (Finite.surjective_of_injective back.injective)

theorem Lawful.bijective_encode (h : e.Lawful) : Function.Bijective e.encode :=
  ⟨Function.LeftInverse.injective h.decode_encode, Function.RightInverse.surjective h.encode_decode⟩

end Finite

/-! ## A part on nibbles -/

theorem forall_nibble {p : Byte → Prop} : (∀ n : Nibble, p (Byte.ofNibble n)) ↔ ∀ x < 16, p x := by
  constructor
  · intro h x small
    rw [← Byte.ofNibble_low_of_lt small]
    exact h (Byte.low x)
  · intro h n
    exact h _ (Byte.ofNibble_lt n)

/-- Whatever a part sets above a nibble, masking its answers leaves the part on nibbles. -/
theorem masked_decode_encode (c : Encoding Byte) (n : Nibble) :
    c.decode (c.encode (Byte.ofNibble n) &&& 0x0f) &&& 0x0f =
      Byte.ofNibble (c.onNibbles.decode (c.onNibbles.encode n)) := by
  rw [Byte.and_lowMask, Byte.and_lowMask]
  rfl

/-- Masked nibbles come back exactly if the part on nibbles is lawful. -/
theorem masked_comesBack_iff (c : Encoding Byte) :
    (∀ x < 16, c.decode (c.encode x &&& 0x0f) &&& 0x0f = x) ↔ c.onNibbles.Lawful := by
  rw [← forall_nibble]
  constructor
  · intro h
    refine .of_decode_encode fun n => ?_
    rw [← Byte.low_ofNibble (c.onNibbles.decode _), ← masked_decode_encode, h, Byte.low_ofNibble]
  · intro lawful n
    rw [masked_decode_encode, lawful.decode_encode]

/-! ## Both parts -/

/-- The halves go there and back each on its own. -/
theorem concat_decode_encode (high low : Encoding Byte) (b : Byte) :
    (concat high low).decode ((concat high low).encode b) =
      Byte.ofNibbles (high.onNibbles.decode (high.onNibbles.encode (Byte.high b)))
        (low.onNibbles.decode (low.onNibbles.encode (Byte.low b))) := by
  rw [concat_encode, concat_decode, Byte.high_ofNibbles, Byte.low_ofNibbles]

theorem lawful_concat_iff {high low : Encoding Byte} :
    (concat high low).Lawful ↔ high.onNibbles.Lawful ∧ low.onNibbles.Lawful := by
  constructor
  · intro lawful
    have halves (h l : Nibble) :
        Byte.ofNibbles (high.onNibbles.decode (high.onNibbles.encode h))
          (low.onNibbles.decode (low.onNibbles.encode l)) = Byte.ofNibbles h l := by
      have back := lawful.decode_encode (Byte.ofNibbles h l)
      rwa [concat_decode_encode, Byte.high_ofNibbles, Byte.low_ofNibbles] at back
    constructor
    · refine .of_decode_encode fun h => ?_
      rw [← Byte.high_ofNibbles (high.onNibbles.decode _), halves h 0, Byte.high_ofNibbles]
    · refine .of_decode_encode fun l => ?_
      rw [← Byte.low_ofNibbles _ (low.onNibbles.decode _), halves 0 l, Byte.low_ofNibbles]
  · rintro ⟨hh, hl⟩
    exact .concat hh hl

/-- A byte of two halves comes back, whichever byte it is, exactly if in either part every nibble
comes back when the answers are masked.  Then the decoder is also undone by the encoder, which
permutes the bytes. -/
theorem concat_comesBack_iff (high low : Encoding Byte) :
    ((∀ b, (concat high low).decode ((concat high low).encode b) = b) ↔
        ∀ c ∈ [high, low], ∀ x < 16, c.decode (c.encode x &&& 0x0f) &&& 0x0f = x) ∧
      ((∀ b, (concat high low).decode ((concat high low).encode b) = b) →
        (∀ b, (concat high low).encode ((concat high low).decode b) = b) ∧
          Function.Bijective (concat high low).encode) := by
  have lawful (h : ∀ b, (concat high low).decode ((concat high low).encode b) = b) :
      (concat high low).Lawful := .of_decode_encode h
  refine ⟨?_, fun h => ⟨(lawful h).encode_decode, (lawful h).bijective_encode⟩⟩
  simp only [List.forall_mem_cons, List.not_mem_nil, false_imp_iff, implies_true, and_true,
    masked_comesBack_iff, ← lawful_concat_iff]
  exact ⟨lawful, Lawful.decode_encode⟩

/-- Adds bits to a byte.  The decoder takes off those of the low half only. -/
def spilling : Encoding Byte := ⟨(· ^^^ 0xf5), (· ^^^ 0x35)⟩

/-- Exchanges the halves of a byte. -/
def crossing : ByteMixing where
  matrix := ⟨#v[16, 32, 64, 128, 1, 2, 4, 8]⟩
  inverse := ⟨#v[16, 32, 64, 128, 1, 2, 4, 8]⟩
  invert?_matrix := by decide

/-- A part may spill over its half and not be lawful, and bytes come back.  A part may be lawful,
and bytes do not come back, since it moves nibbles out of their half. -/
theorem concat_comesBack_spilling :
    (¬ spilling.Lawful ∧ ∀ b, (concat spilling spilling).encode
        ((concat spilling spilling).decode b) = b) ∧
      crossing.encoding.Lawful ∧
        ¬ ∀ b, (concat crossing.encoding spilling).decode
          ((concat crossing.encoding spilling).encode b) = b := by
  have spills : ¬ spilling.Lawful := fun lawful =>
    absurd (lawful.decode_encode 0) (by decide)
  have masked : ∀ x < 16, spilling.decode (spilling.encode x &&& 0x0f) &&& 0x0f = x := by
    decide +kernel
  have both : ∀ c ∈ [spilling, spilling],
      ∀ x < 16, c.decode (c.encode x &&& 0x0f) &&& 0x0f = x :=
    List.forall_mem_cons.2 ⟨masked, List.forall_mem_singleton.2 masked⟩
  obtain ⟨iff, back⟩ := concat_comesBack_iff spilling spilling
  refine ⟨⟨spills, (back (iff.2 both)).1⟩, crossing.lawful, fun h => ?_⟩
  have high := (concat_comesBack_iff crossing.encoding spilling).1.1 h _ List.mem_cons_self
  exact absurd (high 1 (by decide)) (by decide)

end WhiteBox.Encoding
