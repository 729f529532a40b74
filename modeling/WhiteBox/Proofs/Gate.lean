import WhiteBox.Proofs.Build
import WhiteBox.Proofs.Encoding.Lawful
import WhiteBox.Wire

/-!
# Encoded XOR gates

A `Wire` is a byte together with the shuffle that encodes it, and `Wire.Carries` says which
nibble it carries.  A gate decodes its two operands with their own shuffles, adds them, and
encodes the sum with a third one.  So a gate on wires that carry `x` and `y` carries
`x ^^^ y`, whatever the shuffles are (`Wire.Carries.gate`).  The byte on the wire is then
below sixteen again, which is what lets the next gate pack it into one half of its input.

A chain feeds the accumulator through one gate for each operand.  By induction on the
operands it carries the sum of all that went in (`Wire.Carries.chain`), and
`Wire.Carries.fold` is the chain whose accumulator starts as the first of `k + 1` wires.

The wires come from wide values that are encoded byte by byte.  Nibble `n` of such a value
is encoded by the shuffle of its place alone (`NibblePair.nibble_encodings`), and where the
encodings are put together from those of nibble wires, that is the encoding of the wire at
nibble `n` (`NibblePair.shuffleAt_ofWires`).
-/

namespace WhiteBox

/-! ## Wires and gates -/

/-- A byte and the shuffle that encodes it. -/
structure Wire where
  /-- The shuffle. -/
  encoding : NibbleShuffle
  /-- The byte. -/
  byte : Byte

/-- The table of a gate: the shuffles of its operands, and that of its output. -/
def gateTable (left right out : NibbleShuffle) : ByteTable Byte :=
  ByteTable.encoded (.concat left.onBytes right.onBytes) xorTable out.onBytes

namespace Wire

/-- The wire carries a nibble. -/
def Carries (w : Wire) (x : Nibble) : Prop := w.byte = Byte.ofNibble (w.encoding.encode x)

/-- The byte that is read off the wire. -/
def read (w : Wire) : Byte := w.encoding.onBytes.decode w.byte

/-- The output of the gate on two wires, the left one in the high half of its input. -/
def gate (left right : Wire) (out : NibbleShuffle) : Wire :=
  ⟨out, gateTable left.encoding right.encoding out ((left.byte <<< 4) ||| right.byte)⟩

/-- The accumulator after one gate for each operand. -/
def chain {ι : Type} (operands : ι → Wire) (outs : ι → NibbleShuffle) : Wire → List ι → Wire
  | acc, [] => acc
  | acc, i :: rest => chain operands outs (acc.gate (operands i) (outs i)) rest

/-- The chain of `k` gates through `k + 1` wires. -/
def fold {k : Nat} (wires : Fin (k + 1) → Wire) (outs : Fin k → NibbleShuffle) : Wire :=
  chain (fun g => wires g.succ) outs (wires 0) (List.finRange k)

end Wire

theorem gateTable_ofNibbles (left right out : NibbleShuffle) (x y : Nibble) :
    gateTable left right out (Byte.ofNibbles (left.encode x) (right.encode y)) =
      Byte.ofNibble (out.encode (x ^^^ y)) := by
  have input : (Encoding.concat left.onBytes right.onBytes).decode
      (Byte.ofNibbles (left.encode x) (right.encode y)) = Byte.ofNibbles x y := by
    rw [Encoding.concat_decode, Byte.high_ofNibbles, Byte.low_ofNibbles,
      NibbleShuffle.onNibbles_decode, NibbleShuffle.onNibbles_decode,
      NibbleShuffle.decode_encode, NibbleShuffle.decode_encode]
  have sum : xorTable (Byte.ofNibbles x y) = Byte.ofNibble (x ^^^ y) := by
    rw [xorTable, Byte.high_ofNibbles, Byte.low_ofNibbles]
  rw [gateTable, ByteTable.encoded, input, sum]
  show Byte.ofNibble (out.encode (Byte.low (Byte.ofNibble (x ^^^ y)))) = _
  rw [Byte.low_ofNibble]

theorem NibbleShuffle.onBytes_decode_encode (s : NibbleShuffle) (x : Nibble) :
    s.onBytes.decode (Byte.ofNibble (s.encode x)) = Byte.ofNibble x := by
  show Byte.ofNibble (s.decode (Byte.low (Byte.ofNibble (s.encode x)))) = _
  rw [Byte.low_ofNibble, decode_encode]

namespace Wire

theorem Carries.read {w : Wire} {x : Nibble} (h : w.Carries x) : w.read = Byte.ofNibble x := by
  rw [Wire.read, h]
  exact w.encoding.onBytes_decode_encode x

/-- A gate adds what its operands carry. -/
theorem Carries.gate {left right : Wire} {x y : Nibble} (hl : left.Carries x)
    (hr : right.Carries y) (out : NibbleShuffle) : (left.gate right out).Carries (x ^^^ y) := by
  have input : (left.byte <<< 4) ||| right.byte =
      Byte.ofNibbles (left.encoding.encode x) (right.encoding.encode y) := by
    rw [hl, hr, Byte.shiftLeft_four, Byte.low_ofNibble, Byte.ofNibbles_or]
  exact (congrArg _ input).trans (gateTable_ofNibbles _ _ out x y)

/-- A chain adds what its operands carry to what its accumulator carries. -/
theorem Carries.chain {ι : Type} {operands : ι → Wire} {values : ι → Nibble}
    (carry : ∀ i, (operands i).Carries (values i)) (outs : ι → NibbleShuffle) (l : List ι)
    {acc : Wire} {x : Nibble} (h : acc.Carries x) :
    (Wire.chain operands outs acc l).Carries (x ^^^ Nibble.sum (l.map values)) := by
  induction l generalizing acc x with
  | nil =>
    rw [List.map_nil, Nibble.sum_nil, BitVec.xor_zero]
    exact h
  | cons i rest ih =>
    rw [List.map_cons, Nibble.sum_cons, ← BitVec.xor_assoc]
    exact ih (h.gate (carry i) (outs i))

theorem Carries.fold {k : Nat} {wires : Fin (k + 1) → Wire} {values : Fin (k + 1) → Nibble}
    (carry : ∀ i, (wires i).Carries (values i)) (outs : Fin k → NibbleShuffle) :
    (Wire.fold wires outs).Carries (Nibble.sum ((List.finRange (k + 1)).map values)) := by
  rw [List.finRange_succ, List.map_cons, List.map_map, Nibble.sum_cons]
  exact (carry 0).chain (fun g => carry g.succ) outs (List.finRange k)

theorem encoding_chain {ι : Type} (operands : ι → Wire) (outs : ι → NibbleShuffle) (l : List ι)
    (last : ι) (acc : Wire) :
    (chain operands outs acc (l ++ [last])).encoding = outs last := by
  induction l generalizing acc with
  | nil => rfl
  | cons i rest ih => exact ih _

/-- The last gate encodes the accumulator. -/
theorem encoding_fold {k : Nat} (wires : Fin (k + 2) → Wire) (outs : Fin (k + 1) → NibbleShuffle) :
    (fold wires outs).encoding = outs (Fin.last k) := by
  rw [fold, List.finRange_succ_last]
  exact encoding_chain _ _ _ _ _

end Wire

/-! ## Wires of wide values -/

/-- The shuffle of nibble `n`. -/
def NibblePair.shuffleAt {k : Nat} (pairs : Vector NibblePair k) (n : Fin (2 * k)) :
    NibbleShuffle :=
  let pair := pairs.get ⟨n.val / 2, Bytes.half_lt n⟩
  if n.val % 2 = 0 then pair.high else pair.low

theorem NibblePair.encode_eq (p : NibblePair) (b : Byte) :
    p.encoding.encode b =
      Byte.ofNibbles (p.high.encode (Byte.high b)) (p.low.encode (Byte.low b)) := by
  rw [encoding, Encoding.concat_encode, NibbleShuffle.onNibbles_encode,
    NibbleShuffle.onNibbles_encode]

/-- The shuffle of a nibble encodes it, and nothing else does. -/
theorem NibblePair.nibble_encodings {k : Nat} (pairs : Vector NibblePair k) (v : Vector Byte k)
    (n : Fin (2 * k)) :
    Bytes.nibble ((NibblePair.encodings pairs).encode v) n =
      (shuffleAt pairs n).encode (Bytes.nibble v n) := by
  have byte (i : Nat) (hi : i < k) :
      ((NibblePair.encodings pairs).encode v)[i] = pairs[i].encoding.encode v[i] := by
    simp only [NibblePair.encodings, Encoding.pointwise, Vector.getElem_zipWith,
      Vector.getElem_map]
  simp only [Bytes.nibble, shuffleAt, byte, NibblePair.encode_eq, Byte.high_ofNibbles,
    Byte.low_ofNibbles]
  split
  · rfl
  · rfl

/-- A nibble of an encoded value, on the wire of its place. -/
theorem NibblePair.carries_nibble {k : Nat} (pairs : Vector NibblePair k) (v : Vector Byte k)
    (n : Fin (2 * k)) :
    Wire.Carries ⟨shuffleAt pairs n,
        Byte.ofNibble (Bytes.nibble ((NibblePair.encodings pairs).encode v) n)⟩
      (Bytes.nibble v n) :=
  congrArg Byte.ofNibble (nibble_encodings pairs v n)

/-- A fold through nibble `n` of encoded values adds up that nibble of the values. -/
theorem NibblePair.decode_fold {j k : Nat} (pairs : Fin (j + 2) → Vector NibblePair k)
    (values : Fin (j + 2) → Vector Byte k) (n : Fin (2 * k)) (outs : Fin (j + 1) → NibbleShuffle) :
    (outs (Fin.last j)).onBytes.decode (Wire.fold (fun i => ⟨shuffleAt (pairs i) n,
        Byte.ofNibble (Bytes.nibble ((NibblePair.encodings (pairs i)).encode (values i)) n)⟩)
        outs).byte =
      Byte.ofNibble (Bytes.nibble (Bytes.sum ((List.finRange (j + 2)).map values)) n) := by
  have sum : Nibble.sum ((List.finRange (j + 2)).map fun i => Bytes.nibble (values i) n) =
      Bytes.nibble (Bytes.sum ((List.finRange (j + 2)).map values)) n := by
    rw [Bytes.nibble_sum, List.map_map]
    rfl
  have read := (Wire.Carries.fold (fun i => carries_nibble (pairs i) (values i) n) outs).read
  rw [Wire.read, Wire.encoding_fold, sum] at read
  exact read

/-- The encodings at the two nibbles of each byte are those at all nibbles. -/
theorem NibblePair.shuffleAt_ofWires (wire : NibblePos → NibbleShuffle) {k : Nat}
    (hk : k ≤ 16) (n : Fin (2 * k)) (fits : 2 * k ≤ Quantity.nibblePosition.max + 1) :
    shuffleAt (Vector.ofFn fun i : Fin k => ofWires wire (NibblePos.pair (i.castLE hk))) n =
      wire (.ofFin .nibblePosition n fits) := by
  have pair : (Vector.ofFn fun i : Fin k => ofWires wire (NibblePos.pair (i.castLE hk))).get
      ⟨n.val / 2, Bytes.half_lt n⟩ = _ :=
    Vector.getElem_ofFn (Bytes.half_lt n)
  rw [shuffleAt, pair]
  split
  · rename_i even
    refine congrArg wire (Coordinate.ext ?_)
    show 2 * (n.val / 2) = n.val
    omega
  · rename_i odd
    refine congrArg wire (Coordinate.ext ?_)
    show 2 * (n.val / 2) + 1 = n.val
    omega

/-- Output of a round table (inside) or of an inverse mixing table (outside). -/
def Role.step (round : Round) (position : BytePos) (subPosition : NibblePos) : Surface → Role
  | .inside => .tyi round position subPosition
  | .outside => .mbInverse round position subPosition

theorem KeyContext.stepEncoding_eq (ctx : KeyContext) (round : Round) (position : BytePos)
    (subPosition : NibblePos) (surface : Surface) :
    ctx.stepEncoding round position subPosition surface =
      ctx.shuffle (.step round position subPosition surface) := by
  cases surface with
  | inside => rfl
  | outside => rfl

theorem KeyContext.shuffleAt_wordStep (ctx : KeyContext) (round : Round) (position : BytePos)
    (surface : Surface) (n : Fin 8) :
    NibblePair.shuffleAt (ctx.wordStep round position surface) n =
      ctx.shuffle (.step round position (.ofFin .nibblePosition n) surface) := by
  rw [← ctx.stepEncoding_eq]
  exact NibblePair.shuffleAt_ofWires (k := 4)
    (fun n => ctx.stepEncoding round position n surface) (by decide) n (by decide)

end WhiteBox
