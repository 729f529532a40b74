import WhiteBox.Encoding.MaskByte
import WhiteBox.Proofs.Bytes
import WhiteBox.Proofs.Matrix.Elimination

/-!
# Encodings that can be built are lawful

`Encoding.concat` looks at no more than a nibble of what its parts answer: what the high
part sets above it is shifted out and what the low part sets there is masked off.  So
whatever the parts are, the halves of the result come from `Encoding.onNibbles`, the part
cut down to nibbles (`Encoding.concat_encode`, `Encoding.concat_decode`), and the result is
lawful as soon as both cut-down parts are (`Encoding.Lawful.concat`).

`Encoding.Formed` is the grammar of byte encodings, and `Encoding.WideFormed` that of
encodings of words and blocks.  A part of `concat` is a shuffle, which is lawful on nibbles
only, or a byte encoding that takes nibbles to nibbles; `Encoding.HalfFormed` is the one or
the other.  The leaves are lawful for three unlike reasons: a shuffle by its tables, a byte
mixing by elimination, and the identity by itself.
-/

namespace WhiteBox

namespace Encoding

/-! ## Concatenation -/

/-- A byte encoding cut down to nibbles. -/
def onNibbles (e : Encoding Byte) : Encoding Nibble where
  encode x := Byte.low (e.encode (Byte.ofNibble x))
  decode y := Byte.low (e.decode (Byte.ofNibble y))

theorem concat_encode (high low : Encoding Byte) (b : Byte) :
    (concat high low).encode b =
      Byte.ofNibbles (high.onNibbles.encode (Byte.high b)) (low.onNibbles.encode (Byte.low b)) := by
  show (high.encode (b >>> 4) <<< 4) ||| (low.encode (b &&& 0x0f) &&& 0x0f) = _
  rw [Byte.ushiftRight_four, Byte.and_lowMask, Byte.and_lowMask, Byte.shiftLeft_four,
    Byte.ofNibbles_or]
  rfl

theorem concat_decode (high low : Encoding Byte) (b : Byte) :
    (concat high low).decode b =
      Byte.ofNibbles (high.onNibbles.decode (Byte.high b)) (low.onNibbles.decode (Byte.low b)) :=
  concat_encode ⟨high.decode, high.encode⟩ ⟨low.decode, low.encode⟩ b

theorem Lawful.concat {high low : Encoding Byte} (hh : high.onNibbles.Lawful)
    (hl : low.onNibbles.Lawful) : (Encoding.concat high low).Lawful where
  decode_encode b := by
    rw [concat_encode, concat_decode, Byte.high_ofNibbles, Byte.low_ofNibbles, hh.decode_encode,
      hl.decode_encode, Byte.ofNibbles_high_low]
  encode_decode b := by
    rw [concat_decode, concat_encode, Byte.high_ofNibbles, Byte.low_ofNibbles, hh.encode_decode,
      hl.encode_decode, Byte.ofNibbles_high_low]

/-- Takes nibbles to nibbles, both ways. -/
structure KeepsNibbles (e : Encoding Byte) : Prop where
  /-- When encoding. -/
  encode_lt : ∀ b, b < 16 → e.encode b < 16
  /-- When decoding. -/
  decode_lt : ∀ b, b < 16 → e.decode b < 16

theorem Lawful.onNibbles {e : Encoding Byte} (he : e.Lawful) (keeps : e.KeepsNibbles) :
    e.onNibbles.Lawful where
  decode_encode x := by
    have small := keeps.encode_lt _ (Byte.ofNibble_lt x)
    show Byte.low (e.decode (Byte.ofNibble (Byte.low (e.encode (Byte.ofNibble x))))) = x
    rw [Byte.ofNibble_low_of_lt small, he.decode_encode, Byte.low_ofNibble]
  encode_decode y := by
    have small := keeps.decode_lt _ (Byte.ofNibble_lt y)
    show Byte.low (e.encode (Byte.ofNibble (Byte.low (e.decode (Byte.ofNibble y))))) = y
    rw [Byte.ofNibble_low_of_lt small, he.encode_decode, Byte.low_ofNibble]

end Encoding

/-! ## The parts that values are made of -/

theorem NibbleShuffle.onNibbles_encode (s : NibbleShuffle) (x : Nibble) :
    s.onBytes.onNibbles.encode x = s.encode x := by
  show Byte.low (Byte.ofNibble (s.encode (Byte.low (Byte.ofNibble x)))) = _
  rw [Byte.low_ofNibble, Byte.low_ofNibble]

theorem NibbleShuffle.onNibbles_decode (s : NibbleShuffle) (y : Nibble) :
    s.onBytes.onNibbles.decode y = s.decode y := by
  show Byte.low (Byte.ofNibble (s.decode (Byte.low (Byte.ofNibble y)))) = _
  rw [Byte.low_ofNibble, Byte.low_ofNibble]

theorem NibbleShuffle.lawful_onNibbles (s : NibbleShuffle) : s.onBytes.onNibbles.Lawful where
  decode_encode x := by rw [onNibbles_encode, onNibbles_decode, decode_encode]
  encode_decode y := by rw [onNibbles_decode, onNibbles_encode, encode_decode]

/-- A shuffle that acts on bytes drops their high half. -/
def NibbleShuffle.DropsHigh (s : NibbleShuffle) : Prop :=
  ∀ v, s.onBytes.decode (s.onBytes.encode v) = v &&& 0x0f ∧
    s.onBytes.encode (s.onBytes.decode v) = v &&& 0x0f

theorem NibbleShuffle.dropsHigh (s : NibbleShuffle) : s.DropsHigh := by
  intro v
  rw [Byte.and_lowMask]
  constructor
  · show Byte.ofNibble (s.decode (Byte.low (Byte.ofNibble (s.encode (Byte.low v))))) = _
    rw [Byte.low_ofNibble, decode_encode]
  · show Byte.ofNibble (s.encode (Byte.low (Byte.ofNibble (s.decode (Byte.low v))))) = _
    rw [Byte.low_ofNibble, encode_decode]

/-- The matrix of a byte mixing is accepted. -/
theorem ByteMixing.ofMatrix_matrix (m : ByteMixing) : ofMatrix m.matrix = .ok m := by
  unfold ofMatrix
  split
  · exact congrArg Except.ok (ext_matrix rfl)
  · rename_i singular
    rw [m.invert?_matrix] at singular
    cases singular

/-- Elimination makes a byte mixing lawful. -/
theorem ByteMixing.lawful (m : ByteMixing) : m.encoding.Lawful where
  decode_encode := (Matrix.invert?_apply m.invert?_matrix).1
  encode_decode := (Matrix.invert?_apply m.invert?_matrix).2

theorem NibblePair.lawful (p : NibblePair) : p.encoding.Lawful :=
  .concat p.high.lawful_onNibbles p.low.lawful_onNibbles

theorem MixedByte.lawful (m : MixedByte) : m.encoding.Lawful :=
  m.first.lawful.composed m.second.lawful

theorem MaskByte.lawful : ∀ b : MaskByte, b.encoding.Lawful
  | plain pair => pair.lawful
  | mixed byte => byte.lawful

theorem NibblePair.lawful_encodings {n : Nat} (pairs : Vector NibblePair n) :
    (NibblePair.encodings pairs).Lawful :=
  .pointwise fun i hi => by
    rw [Vector.getElem_map]
    exact pairs[i].lawful

theorem MaskByte.lawful_encodings {n : Nat} (bytes : Vector MaskByte n) :
    (MaskByte.encodings bytes).Lawful :=
  .pointwise fun i hi => by
    rw [Vector.getElem_map]
    exact bytes[i].lawful

/-! ## The grammar of encodings -/

namespace Encoding

mutual

/-- The byte encodings that can be built. -/
inductive Formed : Encoding Byte → Prop where
  /-- The identity. -/
  | identity : Formed .identity
  /-- A byte mixing, for a matrix that was accepted. -/
  | mixing {matrix : Matrix 8} {m : ByteMixing} :
      ByteMixing.ofMatrix matrix = .ok m → Formed m.encoding
  /-- Two halves. -/
  | concat {high low : Encoding Byte} :
      HalfFormed high → HalfFormed low → Formed (.concat high low)
  /-- One after the other. -/
  | composed {first second : Encoding Byte} :
      Formed first → Formed second → Formed (first.composed second)
  /-- A byte of a mask's output, mixed or not. -/
  | mask (b : MaskByte) : Formed b.encoding

/-- What may stand at a half of a byte. -/
inductive HalfFormed : Encoding Byte → Prop where
  /-- A shuffle. -/
  | shuffle (s : NibbleShuffle) : HalfFormed s.onBytes
  /-- A byte encoding that takes nibbles to nibbles. -/
  | byte {e : Encoding Byte} : Formed e → e.KeepsNibbles → HalfFormed e

end

/-- The encodings of `n` bytes that can be built. -/
inductive WideFormed {n : Nat} : Encoding (Vector Byte n) → Prop where
  /-- Each byte on its own. -/
  | pointwise {parts : Vector (Encoding Byte) n} :
      (∀ (i : Nat) (hi : i < n), Formed parts[i]) → WideFormed (.pointwise parts)
  /-- One after the other. -/
  | composed {first second : Encoding (Vector Byte n)} :
      WideFormed first → WideFormed second → WideFormed (first.composed second)

mutual

theorem Formed.lawful : ∀ {e : Encoding Byte}, Formed e → e.Lawful
  | _, .identity => lawful_identity
  | _, .mixing _ => ByteMixing.lawful _
  | _, .concat high low => .concat high.lawful low.lawful
  | _, .composed first second => first.lawful.composed second.lawful
  | _, .mask b => b.lawful

theorem HalfFormed.lawful : ∀ {e : Encoding Byte}, HalfFormed e → e.onNibbles.Lawful
  | _, .shuffle s => s.lawful_onNibbles
  | _, .byte formed keeps => formed.lawful.onNibbles keeps

end

theorem WideFormed.lawful {n : Nat} {e : Encoding (Vector Byte n)} (formed : WideFormed e) :
    e.Lawful := by
  induction formed with
  | pointwise parts => exact .pointwise fun i hi => (parts i hi).lawful
  | composed _ _ first second => exact first.composed second

/-- Every byte encoding and every encoding of several bytes that can be built is undone by
its decoder, and undoes it. -/
theorem decode_encode_of_formed :
    (∀ e : Encoding Byte, Formed e →
      ∀ b, e.decode (e.encode b) = b ∧ e.encode (e.decode b) = b) ∧
    ∀ (n : Nat) (e : Encoding (Vector Byte n)), WideFormed e →
      ∀ v, e.decode (e.encode v) = v ∧ e.encode (e.decode v) = v :=
  ⟨fun _ formed b => ⟨formed.lawful.decode_encode b, formed.lawful.encode_decode b⟩,
    fun _ _ formed v => ⟨formed.lawful.decode_encode v, formed.lawful.encode_decode v⟩⟩

/-- Adds the first bit of a byte to its second bit. -/
def shear : ByteMixing where
  matrix := ⟨#v[1, 3, 4, 8, 16, 32, 64, 128]⟩
  inverse := ⟨#v[1, 3, 4, 8, 16, 32, 64, 128]⟩
  invert?_matrix := by decide

theorem keepsNibbles_shear : shear.encoding.KeepsNibbles where
  encode_lt := by decide +kernel
  decode_lt := by decide +kernel

/-- A byte encoding with a mixing in its high half and a shuffle in its low half. -/
def layered : Encoding Byte :=
  (concat shear.encoding (NibbleShuffle.identity.swap 3 12).onBytes).composed shear.encoding

theorem formed_layered : Formed layered :=
  have mixing : Formed shear.encoding := .mixing shear.ofMatrix_matrix
  .composed (.concat (.byte mixing keepsNibbles_shear) (.shuffle _)) mixing

theorem decode_encode_layered :
    (layered.decode (layered.encode 0xa3) = 0xa3 ∧ layered.encode (layered.decode 0xa3) = 0xa3) ∧
      (pointwise (Vector.replicate 4 layered)).decode
          ((pointwise (Vector.replicate 4 layered)).encode #v[0xde, 0xad, 0xbe, 0xef]) =
        #v[0xde, 0xad, 0xbe, 0xef] := by
  have wide : WideFormed (pointwise (Vector.replicate 4 layered)) := .pointwise fun i hi => by
    rw [Vector.getElem_replicate]
    exact formed_layered
  exact ⟨decode_encode_of_formed.1 layered formed_layered 0xa3,
    (decode_encode_of_formed.2 4 _ wide #v[0xde, 0xad, 0xbe, 0xef]).1⟩

end Encoding

end WhiteBox
