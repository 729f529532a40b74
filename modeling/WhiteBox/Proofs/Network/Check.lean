import WhiteBox.NetworkCheck
import WhiteBox.Proofs.Encoding.BlockMask

/-!
# No check fails

Everything that a sample is checked for holds of every context, so a check can only fail to
return, in the draw of a mixing bijection.  `KeyContext.HasMixings` says of a sample that its
draws return: those of the sixteen boundary matrices, and that of the column matrix.

The encodings come back because they are lawful.  The gate cancels the encodings of its
operands because the shuffle at nibble `0` of a word is the one that the gate derives for
that nibble.  The coordinates are in range because a sample is taken modulo ten and sixteen;
the gate alone would allow all byte positions below 128.
-/

namespace WhiteBox

namespace NetworkCheck

variable {ctx : KeyContext}

theorem ensure_eq_ok {holds : Bool} (h : holds = true) (failure : CheckFailure) :
    ensure holds failure = .ok () :=
  if_pos h

theorem built_bind {α β : Type} {x : Except BuildError α} {a : α} (h : x = .ok a)
    (f : α → Except CheckFailure β) : (built x >>= f) = f a := by
  rw [h]
  rfl

theorem roundTrips_eq_true {α : Type} [DecidableEq α] {e : Encoding α} (lawful : e.Lawful) (v : α) :
    roundTrips e v = true :=
  decide_eq_true (lawful.decode_encode v)

/-! ## The wide encodings -/

theorem checkSurface_eq_ok {surface : Surface} {matrices : Fin 16 → Matrix 8}
    (boundary : ctx.IsBoundary SlotMap.shiftRows.slot matrices surface) (round : Round)
    (position : BytePos) : checkSurface ctx round position surface = .ok () := by
  obtain ⟨bytes, built, -⟩ := KeyContext.exists_blockMask boundary position
  rw [checkSurface, built]
  refine forM_eq_ok fun v _ => ?_
  rw [ensure_eq_ok (roundTrips_eq_true (MaskByte.lawful_encodings bytes) _), ok_bind]
  exact ensure_eq_ok (roundTrips_eq_true (NibblePair.lawful_encodings _) _) _

/-! ## The gate -/

/-- The gate answers the sum of the high halves that its two wires encode in theirs. -/
theorem decode_gate {left right : NibbleShuffle} {a b u v : Byte}
    (ha : Byte.high a = left.encode (Byte.high u)) (hb : Byte.high b = right.encode (Byte.high v))
    (out : NibbleShuffle) :
    out.onBytes.decode (gateTable left right out ((a &&& 0xf0) ||| (b >>> 4))) =
      (u ^^^ v) >>> 4 := by
  have input : a &&& 0xf0 ||| b >>> 4 =
      Byte.ofNibbles (left.encode (Byte.high u)) (right.encode (Byte.high v)) := by
    rw [← ha, ← hb, Byte.ushiftRight_four, ← Byte.ofNibbles_or, ← Byte.and_highMask]
    rfl
  rw [input, gateTable_ofNibbles, out.onBytes_decode_encode, Byte.ushiftRight_four, Byte.high_xor]

theorem checkXorGate_eq_ok {round : Round} {position : BytePos} (low : position.val < 128)
    (draws : ctx.HasMixing (some round) ⟨position.val / 4, by simp only [Quantity.max]; omega⟩
      .word) : checkXorGate ctx round position = .ok () := by
  obtain ⟨mixing, draw⟩ := KeyContext.exists_mixingBijection_iff.2 draws
  obtain ⟨inverse, found⟩ := KeyContext.exists_invert?_of_mixingBijection draw
  have column : position.val / 4 ≤ Quantity.bytePosition.max := by simp only [Quantity.max]; omega
  have byte0 : position.val / 4 * 4 ≤ Quantity.bytePosition.max := by
    simp only [Quantity.max]; omega
  have byte1 : position.val / 4 * 4 + 1 ≤ Quantity.bytePosition.max := by
    simp only [Quantity.max]; omega
  have nibble : position.val / 4 * 8 ≤ Quantity.nibblePosition.max := by
    simp only [Quantity.max]; omega
  simp only [checkXorGate]
  rw [built_bind (Coordinate.ofNat_of_le column), built_bind draw,
    built_bind (Coordinate.ofNat_of_le byte0), built_bind (Coordinate.ofNat_of_le byte1),
    built_bind (MixingInverseTable.ofMixing_eq_ok found (by decide)),
    built_bind (MixingInverseTable.ofMixing_eq_ok found (by decide)),
    built_bind (Coordinate.ofNat_of_le (Nat.zero_le _)),
    built_bind (Coordinate.ofNat_of_le nibble),
    built_bind (Coordinate.ofNat_of_le (Nat.zero_le _))]
  refine forM_eq_ok fun a _ => forM_eq_ok fun b _ => ensure_eq_ok ?_ _
  rw [beq_iff_eq]
  -- The high half of the first byte of a word is its nibble `0`.
  have wire (byte : BytePos) (v : Column) :
      Byte.high ((NibblePair.encodings (ctx.wordStep round byte .outside)).encode v)[0] =
        (ctx.stepEncoding round byte (.ofFin .nibblePosition (0 : Fin 8)) .outside).encode
          (Byte.high v[0]) := by
    rw [ctx.stepEncoding_eq, ← ctx.shuffleAt_wordStep]
    exact NibblePair.nibble_encodings _ v 0
  exact decode_gate (wire _ _) (wire _ _) _

end NetworkCheck

/-! ## Samples -/

/-- The streams that a sample draws mixing bijections from hold invertible candidates. -/
structure KeyContext.HasMixings (ctx : KeyContext) (sample : Nat) : Prop where
  /-- Those of the mask boundary. -/
  boundary : ∀ i, ctx.HasMixing none (BytePos.ofFin i) .byte
  /-- That of the column which holds the position. -/
  column : ctx.HasMixing
    (some ⟨sample % 10, by simp only [Quantity.max]; omega⟩)
    ⟨sample % 16 / 4, by simp only [Quantity.max]; omega⟩ .word

namespace NetworkCheck

variable {ctx : KeyContext}

theorem checkSample_eq_ok {sample : Nat} (draws : ctx.HasMixings sample) :
    checkSample ctx sample = .ok () := by
  have round : sample % 10 ≤ Quantity.round.max := by simp only [Quantity.max]; omega
  have position : sample % 16 ≤ Quantity.bytePosition.max := by simp only [Quantity.max]; omega
  have slot (i : Fin 16) : SlotMap.shiftRows.slot i < 16 := by revert i; decide
  have inRange (i : Fin 16) : SlotMap.shiftRows.slot i ≤ Quantity.bytePosition.max :=
    (BytePos.ofFin ⟨_, slot i⟩).le_max
  have surface (surface : Surface) :
      checkSurface ctx ⟨sample % 10, round⟩ ⟨sample % 16, position⟩ surface = .ok () := by
    obtain ⟨matrices, boundary⟩ :
        ∃ matrices, ctx.IsBoundary SlotMap.shiftRows.slot matrices surface :=
      KeyContext.exists_isBoundary inRange fun _ i => draws.boundary ⟨_, slot i⟩
    exact checkSurface_eq_ok boundary _ _
  rw [checkSample, built_bind (Coordinate.ofNat_of_le round),
    built_bind (Coordinate.ofNat_of_le position), surface, ok_bind, surface, ok_bind]
  refine checkXorGate_eq_ok ?_ draws.column
  show sample % 16 < 128
  omega

/-- A check of which all draws return finds nothing wrong. -/
theorem check_eq_ok {samples : Nat} (draws : ∀ sample < samples, ctx.HasMixings sample) :
    check ctx samples = .ok () :=
  forM_eq_ok fun sample h => checkSample_eq_ok (draws sample (List.mem_range.1 h))

end NetworkCheck

/-! ## The draws of one seed -/

/-- The halves of key stream blocks that hold the boundary matrices of the seed `0x16`. -/
def boundaryHalves : Vector (Nat × Fin 2) 16 :=
  #v[(0, 1), (0, 0), (1, 0), (0, 1), (0, 0), (2, 0), (0, 0), (0, 0),
    (0, 0), (1, 0), (0, 1), (0, 0), (0, 0), (0, 1), (0, 0), (3, 0)]

/-- The boundary matrix of the seed `0x16` at a position. -/
def boundaryMatrix (i : Fin 16) : Matrix 8 :=
  let key := KeyContext.streamKey ⟨[0x16]⟩ (Role.mixing .byte none (.ofFin i)).label
  let place := boundaryHalves.get i
  halfBlock (ChaCha20.block key place.1) place.2

theorem isInvertible_boundaryMatrix_low (i : Fin 8) :
    (boundaryMatrix (i.castLE (by decide))).isInvertible = true := by
  revert i
  decide +kernel

theorem isInvertible_boundaryMatrix_high (i : Fin 8) :
    (boundaryMatrix (i.natAdd 8)).isInvertible = true := by
  revert i
  decide +kernel

/-- All boundary matrices of the seed `0x16` are drawn. -/
theorem hasMixing_boundary (i : Fin 16) : KeyContext.HasMixing ⟨[0x16]⟩ none (.ofFin i) .byte := by
  have found : (boundaryMatrix i).isInvertible = true :=
    Fin.addCases (motive := fun i : Fin (8 + 8) => (boundaryMatrix i).isInvertible = true)
      isInvertible_boundaryMatrix_low isInvertible_boundaryMatrix_high i
  rw [boundaryMatrix, ← candidateAt_byte] at found
  exact ⟨_, found⟩

theorem hasMixings_first : KeyContext.HasMixings ⟨[0x16]⟩ 0 where
  boundary := hasMixing_boundary
  column := ⟨0, by
    rw [KeyContext.mixingStream, candidateAt_word]
    decide +kernel⟩

end WhiteBox
