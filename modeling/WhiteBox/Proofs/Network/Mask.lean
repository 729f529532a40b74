import WhiteBox.Proofs.Encoding.BlockMask
import WhiteBox.Proofs.Matrix.Bytes

/-!
# The network of a mask

A state goes through a mask in two stages.  Each of its sixteen bytes goes through a mask
table, which answers a whole block on encoded wires.  Then, for each of the thirty-two
nibbles, fifteen gates add up that nibble of the sixteen answers.

The tables answer the mask on one byte each, so their sum is the mask on the state.  Inside,
a wire carries its answer multiplied by the boundary matrices.  These do not depend on the
byte that the table reads, so they are multiplied onto the sum, where their inverses take
them off again.
-/

namespace WhiteBox.KeyContext

/-- What the sixteen tables of a mask put on their wires. -/
def maskWires (ctx : KeyContext) (mask : Matrix 128) (state : Block) (surface : Surface)
    (shift : Fin 16 → Nat) : Except BuildError (Vector Block 16) :=
  Vector.ofFnM fun p => do
    let table ← MaskTable.build mask p
    let output ← ctx.blockMask (.ofFin p) surface shift
    pure (ByteTable.encoded .identity table.table (MaskByte.encodings output) (state.get p))

/-- The accumulator of nibble `n` after the fifteen gates, which encode their sums with
`outs`. -/
def maskAccumulator (ctx : KeyContext) (surface : Surface) (wires : Vector Block 16) (n : Fin 32)
    (outs : Fin 15 → NibbleShuffle) : Wire :=
  Wire.fold
    (fun p => ⟨ctx.shuffle (.mask (.ofFin p) (.ofFin .nibblePosition n) surface),
      Byte.ofNibble (Bytes.nibble wires[p] n)⟩)
    outs

/-- The block that is decoded from the last accumulators, high half first. -/
def maskOutput (ctx : KeyContext) (surface : Surface) (wires : Vector Block 16)
    (outs : Fin 32 → Fin 15 → NibbleShuffle) : Block :=
  let decoded (n : Fin 32) : Byte :=
    (outs n (Fin.last 14)).onBytes.decode (ctx.maskAccumulator surface wires n (outs n)).byte
  Vector.ofFn fun i : Fin 16 =>
    (decoded ⟨2 * i, by omega⟩ <<< 4) ||| decoded ⟨2 * i + 1, by omega⟩

variable {ctx : KeyContext} {surface : Surface} {shift : Fin 16 → Nat}
  {matrices : Fin 16 → Matrix 8}

/-- Every table can be built, and answers the mask on its byte of the state, mixed as all
masks of the surface mix. -/
theorem maskWires_eq_ok (boundary : ctx.IsBoundary shift matrices surface) (mask : Matrix 128)
    (state : Block) :
    ctx.maskWires mask state surface shift = .ok (Vector.ofFn fun p =>
      (NibblePair.encodings (ctx.maskPairs (.ofFin p) surface)).encode
        (Bytes.mix matrices (mask.applyToBytes (Bytes.part state p)))) := by
  refine ofFnM_eq_ok fun p => ?_
  obtain ⟨bytes, built, encode⟩ := exists_blockMask boundary (.ofFin p)
  rw [MaskTable.build_eq_ok (Nat.le_of_lt_succ p.isLt), ok_bind, built, ok_bind]
  exact congrArg Except.ok (encode _)

theorem maskOutput_eq_mix (ctx : KeyContext) (surface : Surface) (matrices : Fin 16 → Matrix 8)
    (mask : Matrix 128) (state : Block) (outs : Fin 32 → Fin 15 → NibbleShuffle) :
    ctx.maskOutput surface (Vector.ofFn fun p =>
        (NibblePair.encodings (ctx.maskPairs (.ofFin p) surface)).encode
          (Bytes.mix matrices (mask.applyToBytes (Bytes.part state p)))) outs =
      Bytes.mix matrices (mask.applyToBytes state) := by
  let answer (p : Fin 16) : Block := Bytes.mix matrices (mask.applyToBytes (Bytes.part state p))
  -- The matrices are the same for all tables, so the sum goes through them.
  have total : Bytes.sum ((List.finRange 16).map answer) =
      Bytes.mix matrices (mask.applyToBytes state) := by
    rw [← Matrix.sum_applyToBytes_part (k := 16) mask state, Bytes.linear_mix.map_sum,
      List.map_map]
    rfl
  have decoded (n : Fin 32) := NibblePair.decode_fold
    (fun p => ctx.maskPairs (.ofFin p) surface) answer n (outs n)
  simp only [shuffleAt_maskPairs, total] at decoded
  rw [← Bytes.ofNibbles_nibble (Bytes.mix matrices _)]
  refine Vector.ext fun i hi => ?_
  simp only [maskOutput, maskAccumulator, Bytes.ofNibbles, Vector.getElem_ofFn, Fin.getElem_fin]
  rw [decoded, decoded, Byte.shiftLeft_four, Byte.low_ofNibble, Byte.ofNibbles_or]

/-- A state comes back from the tables and gates of a mask as the mask takes it outside, and
inside with each byte multiplied by the boundary matrix of its slot, which the inverse
matrices undo. -/
theorem maskOutput_eq (ctx : KeyContext) (mask : Matrix 128) (state : Block) (surface : Surface)
    (shift : Fin 16 → Nat) (inRange : ∀ i, shift i ≤ 255)
    (draws : surface = .inside → ∀ i, ctx.HasMixing none ⟨shift i, inRange i⟩ .byte)
    (outs : Fin 32 → Fin 15 → NibbleShuffle) :
    ∃ wires, ctx.maskWires mask state surface shift = .ok wires ∧
      (surface = .outside → ctx.maskOutput surface wires outs = mask.applyToBytes state) ∧
      (surface = .inside → ∃ mixing inverse : Fin 16 → Matrix 8,
        (∀ i, ctx.mixingBijection .byte none ⟨shift i, inRange i⟩ = .ok (mixing i) ∧
          (mixing i).invert? = some (inverse i)) ∧
        ctx.maskOutput surface wires outs = Bytes.mix mixing (mask.applyToBytes state) ∧
        Bytes.mix inverse (ctx.maskOutput surface wires outs) = mask.applyToBytes state) := by
  obtain ⟨matrices, boundary⟩ := exists_isBoundary inRange draws
  refine ⟨_, maskWires_eq_ok boundary mask state, ?_⟩
  rw [maskOutput_eq_mix]
  cases surface with
  | outside =>
    refine ⟨fun _ => ?_, nofun⟩
    obtain rfl : matrices = fun _ => .identity := funext boundary
    exact Bytes.mix_identity _
  | inside =>
    refine ⟨nofun, fun _ => ?_⟩
    have drawn (i : Fin 16) : ctx.mixingBijection .byte none ⟨shift i, inRange i⟩ =
        .ok (matrices i) :=
      (boundary i).choose_spec
    choose inverse found using fun i => exists_invert?_of_mixingBijection (drawn i)
    exact ⟨matrices, inverse, fun i => ⟨drawn i, found i⟩, rfl, Bytes.mix_invert? found _⟩

theorem maskOutput_eq_four :
    (∀ _ : Fin 16, 4 ≤ 255) ∧ HasMixing ⟨[0x16]⟩ none ⟨4, by decide⟩ .byte ∧
      ∃ wires, maskWires ⟨[0x16]⟩ (.flip .identity 3 100) (Vector.replicate 16 0xa7) .inside
          (fun _ => 4) = .ok wires ∧
        ∃ mixing inverse : Fin 16 → Matrix 8,
          (∀ i, mixingBijection ⟨[0x16]⟩ .byte none ⟨4, by decide⟩ = .ok (mixing i) ∧
            (mixing i).invert? = some (inverse i)) ∧
          maskOutput ⟨[0x16]⟩ .inside wires (fun _ _ => .identity) =
            Bytes.mix mixing (Matrix.applyToBytes (.flip .identity 3 100 : Matrix 128)
              (Vector.replicate 16 0xa7)) ∧
          Bytes.mix inverse (maskOutput ⟨[0x16]⟩ .inside wires (fun _ _ => .identity)) =
            Matrix.applyToBytes (.flip .identity 3 100 : Matrix 128)
              (Vector.replicate 16 0xa7) := by
  have inRange (_ : Fin 16) : 4 ≤ 255 := by decide
  obtain ⟨wires, built, -, inside⟩ := maskOutput_eq ⟨[0x16]⟩ (.flip .identity 3 100)
    (Vector.replicate 16 0xa7) .inside (fun _ => 4) inRange (fun _ _ => hasMixing_four)
    (fun _ _ => .identity)
  exact ⟨inRange, hasMixing_four, wires, built, inside rfl⟩

end WhiteBox.KeyContext
