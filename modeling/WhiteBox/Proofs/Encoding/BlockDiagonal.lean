import WhiteBox.Proofs.Encoding.BlockMask
import WhiteBox.Proofs.Matrix.Invertible

/-!
# The linear layer of a block mask as one matrix

Sixteen matrices on bytes stand on the diagonal of one matrix on blocks: row `8i + k` is row `k`
of matrix `i`, moved to the bits of byte `i` (`Matrix.blockDiagonal`).  Under a word such a row
sees byte `i` only, so the matrix multiplies each byte by its own matrix
(`Matrix.applyToBytes_blockDiagonal`), and its inverse is made of the inverses in the same way
(`Matrix.invert?_blockDiagonal`).

An inside block mask multiplies each byte by a matrix and then shuffles its halves.  So it is the
shuffles after one matrix on blocks, and that matrix can be multiplied into the table in front of
it (`KeyContext.blockMask_fuses`).
-/

namespace WhiteBox

/-! ## Parity under a byte in place -/

theorem parityBelow_of_le {n : Nat} (v : BitVec n) {k : Nat} (h : n ≤ k) :
    parityBelow v k = parity v := by
  induction k, h using Nat.le_induction with
  | base => rfl
  | succ k h ih => rw [parityBelow, ih, BitVec.getLsbD_of_ge v k h, Bool.xor_false]

/-- A byte moved to a place sees what a word has there. -/
theorem parityBelow_shiftLeft {n : Nat} (row : Byte) (place : Nat) (w : BitVec n) (k : Nat)
    (hk : k ≤ n) :
    parityBelow ((row.setWidth n <<< place) &&& w) k =
      parityBelow (row &&& w.extractLsb' place 8) (k - place) := by
  induction k with
  | zero => rw [Nat.zero_sub]; rfl
  | succ k ih =>
    rw [parityBelow, ih (Nat.le_of_succ_le hk), BitVec.getLsbD_and, BitVec.getLsbD_shiftLeft,
      decide_eq_true (Nat.lt_of_succ_le hk)]
    by_cases lt : k < place
    · have below : k + 1 - place = 0 ∧ k - place = 0 := by omega
      rw [below.1, below.2, decide_eq_true lt]
      simp
    · obtain ⟨j, rfl⟩ : ∃ j, k = place + j := ⟨k - place, by omega⟩
      have after : place + j + 1 - place = j + 1 := by omega
      have inside : j < n := by omega
      rw [after, Nat.add_sub_cancel_left, parityBelow, BitVec.getLsbD_and, BitVec.getLsbD_setWidth,
        BitVec.getLsbD_extractLsb', decide_eq_false lt, decide_eq_true inside]
      by_cases narrow : j < 8
      · simp [narrow]
      · simp [narrow, BitVec.getLsbD_of_ge row j (Nat.le_of_not_lt narrow)]

theorem parity_shiftLeft {n : Nat} (row : Byte) {place : Nat} (w : BitVec n)
    (fits : place + 8 ≤ n) :
    parity ((row.setWidth n <<< place) &&& w) = parity (row &&& w.extractLsb' place 8) := by
  rw [parity, parityBelow_shiftLeft row place w n (Nat.le_refl n)]
  exact parityBelow_of_le _ (by omega)

namespace Matrix

variable {k : Nat}

/-! ## Matrices on the diagonal -/

/-- The matrix with the given matrices on the diagonal: row `8i + r` is row `r` of matrix `i`,
shifted left by `8i` bits. -/
def blockDiagonal (matrices : Fin k → Matrix 8) : Matrix (8 * k) :=
  ⟨Vector.ofFn fun j =>
    ((matrices ⟨j.val / 8, by omega⟩).row ⟨j.val % 8, by omega⟩).setWidth (8 * k) <<<
      (8 * (j.val / 8))⟩

variable {matrices inverses : Fin k → Matrix 8}

/-- Byte `i` of the result is matrix `i` on byte `i`. -/
theorem ofWord_apply_blockDiagonal (matrices : Fin k → Matrix 8) (w : BitVec (8 * k)) :
    Bytes.ofWord k ((blockDiagonal matrices).apply w) = Bytes.mix matrices (Bytes.ofWord k w) := by
  refine Vector.ext fun i hi => BitVec.eq_of_getLsbD_eq fun b hb => ?_
  have place : 8 * i + b < 8 * k := by omega
  have byte : (8 * i + b) / 8 = i := by omega
  have bit : (8 * i + b) % 8 = b := by omega
  have row : (blockDiagonal matrices).row ⟨8 * i + b, place⟩ =
      ((matrices ⟨i, hi⟩).row ⟨b, hb⟩).setWidth (8 * k) <<< (8 * i) := by
    simp only [blockDiagonal, row_ofFn, byte, bit]
  rw [Bytes.getElem_mix, getLsbD_apply _ _ ⟨b, hb⟩, Bytes.ofWord, Bytes.ofWord, Vector.getElem_ofFn,
    Vector.getElem_ofFn, BitVec.getLsbD_extractLsb', decide_eq_true hb, Bool.true_and,
    getLsbD_apply _ _ ⟨8 * i + b, place⟩, row, parity_shiftLeft _ _ (by omega)]

theorem applyToBytes_blockDiagonal (matrices : Fin k → Matrix 8) (v : Vector Byte k) :
    (blockDiagonal matrices).applyToBytes v = Bytes.mix matrices v := by
  rw [applyToBytes, ofWord_apply_blockDiagonal, Bytes.ofWord_toWord]

theorem invert?_blockDiagonal (h : ∀ i, (matrices i).invert? = some (inverses i)) :
    (blockDiagonal matrices).invert? = some (blockDiagonal inverses) := by
  refine invert?_eq_some_iff_left.2 (ext_apply fun w => ?_)
  rw [apply_mul, apply_identity, ← Bytes.toWord_ofWord ((blockDiagonal inverses).apply _),
    ofWord_apply_blockDiagonal, ofWord_apply_blockDiagonal, Bytes.mix_invert? h,
    Bytes.toWord_ofWord]

/-- The right factor acts first on bytes, too. -/
theorem applyToBytes_mul (a b : Matrix (8 * k)) (v : Vector Byte k) :
    (a.mul b).applyToBytes v = a.applyToBytes (b.applyToBytes v) := by
  rw [applyToBytes, apply_mul, applyToBytes, applyToBytes, Bytes.toWord_ofWord]

end Matrix

/-! ## The matrix of a block mask -/

namespace MaskByte

variable {k : Nat} {mixings : Fin k → ByteMixing} {pairs : Vector NibblePair k}
  {bytes : Vector MaskByte k}

/-- When mixed bytes are decoded, all shuffles are undone first and all matrices then. -/
theorem encodings_decode
    (h : ∀ (i : Nat) (hi : i < k), bytes[i] = .mixed ⟨mixings ⟨i, hi⟩, pairs[i]⟩)
    (v : Vector Byte k) :
    (MaskByte.encodings bytes).decode v =
      Bytes.mix (fun i => (mixings i).inverse) ((NibblePair.encodings pairs).decode v) := by
  refine Vector.ext fun i hi => ?_
  simp only [MaskByte.encodings, NibblePair.encodings, Encoding.pointwise, Vector.getElem_zipWith,
    Vector.getElem_map, Bytes.getElem_mix, h]
  rfl

end MaskByte

namespace KeyContext

variable {ctx : KeyContext} {position : BytePos} {shift : Fin 16 → Nat} {bytes : Vector MaskByte 16}

/-- Every byte of an inside mask is mixed. -/
theorem exists_mixings_of_blockMask (h : ctx.blockMask position .inside shift = .ok bytes) :
    ∃ (mixings : Fin 16 → ByteMixing) (pairs : Vector NibblePair 16),
      ∀ (i : Nat) (hi : i < 16), bytes[i] = .mixed ⟨mixings ⟨i, hi⟩, pairs[i]⟩ := by
  rw [blockMask_inside_eq, bind_eq_ok_iff] at h
  obtain ⟨mixings, -, built⟩ := h
  cases built
  refine ⟨mixings.get, ctx.maskPairs position .inside, fun i hi => ?_⟩
  rw [Vector.getElem_zipWith]
  rfl

/-- The linear layer of an inside block mask is one matrix on blocks, made of the matrices of
the bytes.  It can be multiplied into the mask table that the encoding is put on. -/
theorem blockMask_fuses (h : ctx.blockMask position .inside shift = .ok bytes) :
    ∃ (mixings : Fin 16 → ByteMixing) (pairs : Vector NibblePair 16) (linear inverse : Matrix 128),
      (∀ (i : Nat) (hi : i < 16), bytes[i] = .mixed ⟨mixings ⟨i, hi⟩, pairs[i]⟩) ∧
        linear = Matrix.blockDiagonal (fun i => (mixings i).matrix) ∧
        inverse = Matrix.blockDiagonal (fun i => (mixings i).inverse) ∧
        linear.invert? = some inverse ∧
        (∀ s, (MaskByte.encodings bytes).encode s =
          (NibblePair.encodings pairs).encode (linear.applyToBytes s)) ∧
        (∀ s, (MaskByte.encodings bytes).decode s =
          inverse.applyToBytes ((NibblePair.encodings pairs).decode s)) ∧
        ∀ (mask : Matrix 128) (p : MaskPosition) (v : Byte),
          ByteTable.encoded .identity (MaskTable.table ⟨mask, p⟩) (MaskByte.encodings bytes) v =
            ByteTable.encoded .identity (MaskTable.table ⟨linear.mul mask, p⟩)
              (NibblePair.encodings pairs) v := by
  obtain ⟨mixings, pairs, mixed⟩ := exists_mixings_of_blockMask h
  have encode (s : Block) : (MaskByte.encodings bytes).encode s =
      (NibblePair.encodings pairs).encode
        ((Matrix.blockDiagonal fun i => (mixings i).matrix : Matrix 128).applyToBytes s) := by
    have pair (i : Nat) (hi : i < 16) : bytes[i].pair = pairs[i] := by
      rw [mixed i hi]
      rfl
    have matrix (i : Nat) (hi : i < 16) : bytes[i].matrix = (mixings ⟨i, hi⟩).matrix := by
      rw [mixed i hi]
      rfl
    rw [Matrix.applyToBytes_blockDiagonal (k := 16)]
    exact MaskByte.encodings_encode pair matrix s
  refine ⟨mixings, pairs, _, _, mixed, rfl, rfl, ?_, encode, fun s => ?_, fun mask p v => ?_⟩
  · exact Matrix.invert?_blockDiagonal (k := 16) fun i => (mixings i).invert?_matrix
  · rw [MaskByte.encodings_decode mixed, ← Matrix.applyToBytes_blockDiagonal (k := 16)]
  · refine (encode _).trans (congrArg _ ?_)
    exact (Matrix.applyToBytes_mul (k := 16) _ mask _).symm

theorem blockMask_fuses_four :
    ∃ bytes, blockMask ⟨[0x16]⟩ ⟨9, by decide⟩ .inside (fun _ => 4) = .ok bytes ∧
      ∃ (pairs : Vector NibblePair 16) (linear inverse : Matrix 128),
        linear.invert? = some inverse ∧
          ∀ v, ByteTable.encoded .identity (MaskTable.table ⟨.flip .identity 3 100, ⟨7, by decide⟩⟩)
              (MaskByte.encodings bytes) v =
            ByteTable.encoded .identity
              (MaskTable.table ⟨linear.mul (.flip .identity 3 100), ⟨7, by decide⟩⟩)
              (NibblePair.encodings pairs) v := by
  have inRange (_ : Fin 16) : 4 ≤ Quantity.bytePosition.max := by decide
  obtain ⟨matrices, boundary⟩ : ∃ matrices, IsBoundary ⟨[0x16]⟩ (fun _ => 4) matrices .inside :=
    exists_isBoundary inRange fun _ _ => hasMixing_four
  obtain ⟨bytes, built, -⟩ := exists_blockMask boundary ⟨9, by decide⟩
  obtain ⟨_, pairs, linear, inverse, -, -, -, found, -, -, fused⟩ := blockMask_fuses built
  exact ⟨bytes, built, pairs, linear, inverse, found, fused _ _⟩

end KeyContext

end WhiteBox
