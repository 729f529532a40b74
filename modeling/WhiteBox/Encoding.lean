import WhiteBox.Shuffle

/-!
# Encodings

An `Encoding` is a pair of functions, one to encode and one to decode.  Nothing in
the type says that they undo each other; `Encoding.Lawful` says it, and the
combinators keep it where they can.

* `identity` changes nothing.
* `composed` applies its first part, then its second, and decodes in the opposite
  order.
* `pointwise` treats each entry of a vector on its own.
* `concat` treats the two halves of a byte on their own.  Its parts are byte
  encodings, which may leave the range of a nibble: what the high part sets above
  bit four is shifted out, what the low part sets there is masked off.
-/

namespace WhiteBox

/-- A way to encode values and a way to decode them. -/
structure Encoding (α : Type) where
  /-- Applies the encoding. -/
  encode : α → α
  /-- Takes it back. -/
  decode : α → α

namespace Encoding

variable {α : Type}

/-- Encoding and decoding undo each other. -/
structure Lawful (e : Encoding α) : Prop where
  /-- What was encoded is decoded. -/
  decode_encode : ∀ v, e.decode (e.encode v) = v
  /-- What was decoded is encoded. -/
  encode_decode : ∀ v, e.encode (e.decode v) = v

/-- Changes nothing. -/
def identity : Encoding α := ⟨id, id⟩

theorem lawful_identity : (identity : Encoding α).Lawful := ⟨fun _ => rfl, fun _ => rfl⟩

/-- Applies `first` and then `second`. -/
def composed (first second : Encoding α) : Encoding α where
  encode v := second.encode (first.encode v)
  decode v := first.decode (second.decode v)

theorem Lawful.composed {a b : Encoding α} (ha : a.Lawful) (hb : b.Lawful) :
    (a.composed b).Lawful where
  decode_encode v := by simp [Encoding.composed, hb.decode_encode, ha.decode_encode]
  encode_decode v := by simp [Encoding.composed, ha.encode_decode, hb.encode_decode]

/-- Treats entry `i` of a vector with encoding `i`. -/
def pointwise {n : Nat} (parts : Vector (Encoding α) n) : Encoding (Vector α n) where
  encode v := parts.zipWith (fun e x => e.encode x) v
  decode v := parts.zipWith (fun e x => e.decode x) v

theorem Lawful.pointwise {n : Nat} {parts : Vector (Encoding α) n}
    (h : ∀ (i : Nat) (hi : i < n), parts[i].Lawful) : (Encoding.pointwise parts).Lawful where
  decode_encode v := by
    ext i hi
    simp [Encoding.pointwise, (h i hi).decode_encode]
  encode_decode v := by
    ext i hi
    simp [Encoding.pointwise, (h i hi).encode_decode]

/-- Treats the high half of a byte with `high` and the low half with `low`. -/
def concat (high low : Encoding Byte) : Encoding Byte where
  encode v := (high.encode (v >>> 4) <<< 4) ||| (low.encode (v &&& 0x0f) &&& 0x0f)
  decode v := (high.decode (v >>> 4) <<< 4) ||| (low.decode (v &&& 0x0f) &&& 0x0f)

end Encoding

/-! ## Shuffles as byte encodings -/

/-- Acts on the low half of a byte; the high half is dropped. -/
def NibbleShuffle.onBytes (s : NibbleShuffle) : Encoding Byte where
  encode v := Byte.ofNibble (s.encode (Byte.low v))
  decode v := Byte.ofNibble (s.decode (Byte.low v))

/-- Two shuffles for the two halves of a byte. -/
structure NibblePair where
  /-- Shuffle of bits `4..8`. -/
  high : NibbleShuffle
  /-- Shuffle of bits `0..4`. -/
  low : NibbleShuffle
  deriving DecidableEq

/-- Shuffles each half of a byte. -/
def NibblePair.encoding (p : NibblePair) : Encoding Byte :=
  .concat p.high.onBytes p.low.onBytes

/-- Shuffles each half of each byte. -/
def NibblePair.encodings {n : Nat} (pairs : Vector NibblePair n) : Encoding (Vector Byte n) :=
  .pointwise (pairs.map NibblePair.encoding)

end WhiteBox
