import WhiteBox.Proofs.Gate
import WhiteBox.Proofs.Matrix.Bytes

/-!
# The network of an inverse mixing bijection

A column that went through a mixing bijection comes back in two stages.  Each of its four
bytes goes through an inverse mixing table, which answers a whole column on encoded wires.
Then, for each nibble of the column, three gates add up that nibble of the four answers.

The tables answer the inverse on one byte each, so their sum is the inverse on the mixed
column.  A gate derives the encodings of its operands on its own, from the coordinates of
the tables that drive them.
-/

namespace WhiteBox.KeyContext

/-- What the four tables of a mixed column put on their wires.  The output of table `j` is
encoded for byte position `bytes j`. -/
def columnWires (ctx : KeyContext) (round : Round) (mixing : Matrix 32) (bytes : Fin 4 → BytePos)
    (column : Column) : Except BuildError (Vector Column 4) :=
  Vector.ofFnM fun j => do
    let table ← MixingInverseTable.ofMixing mixing j
    let output := NibblePair.encodings (ctx.wordStep round (bytes j) .outside)
    pure (ByteTable.encoded .identity table.table output ((mixing.applyToBytes column).get j))

/-- The accumulator of nibble `n` after the three gates. -/
def columnAccumulator (ctx : KeyContext) (round : Round) (bytes : Fin 4 → BytePos)
    (wires : Vector Column 4) (n : Fin 8) : Wire :=
  Wire.fold
    (fun j => ⟨ctx.shuffle (.step round (bytes j) (.ofFin .nibblePosition n) .outside),
      Byte.ofNibble (Bytes.nibble wires[j] n)⟩)
    (fun g : Fin 3 =>
      ctx.shuffle (.xor round (.ofFin .nibblePosition n) (.ofFin .gate g) .outside))

/-- Every table can be built, and answers the inverse on its byte of the mixed column. -/
theorem columnWires_eq_ok (ctx : KeyContext) (round : Round) {mixing inverse : Matrix 32}
    (h : mixing.invert? = some inverse) (bytes : Fin 4 → BytePos) (column : Column) :
    ctx.columnWires round mixing bytes column = .ok (Vector.ofFn fun j =>
      (NibblePair.encodings (ctx.wordStep round (bytes j) .outside)).encode
        (inverse.applyToBytes (Bytes.part (mixing.applyToBytes column) j))) := by
  refine ofFnM_eq_ok fun j => ?_
  rw [MixingInverseTable.ofMixing_eq_ok h (Nat.le_of_lt_succ j.isLt), ok_bind]
  rfl

/-- A column comes back from the tables and gates of its mixing bijection, nibble by
nibble. -/
theorem columnAccumulator_decode (ctx : KeyContext) (round : Round) {mixing : Matrix 32}
    (invertible : mixing.isInvertible = true) (bytes : Fin 4 → BytePos) (column : Column) :
    ∃ wires, ctx.columnWires round mixing bytes column = .ok wires ∧
      ∀ n : Fin 8,
        (ctx.shuffle (.xor round (.ofFin .nibblePosition n) (.ofFin .gate (2 : Fin 3))
            .outside)).onBytes.decode (ctx.columnAccumulator round bytes wires n).byte =
          Byte.ofNibble (Bytes.nibble column n) := by
  obtain ⟨inverse, h⟩ := Option.isSome_iff_exists.1 invertible
  refine ⟨_, ctx.columnWires_eq_ok round h bytes column, fun n => ?_⟩
  let answer (j : Fin 4) : Column :=
    inverse.applyToBytes (Bytes.part (mixing.applyToBytes column) j)
  have total : Bytes.sum ((List.finRange 4).map answer) = column :=
    Matrix.sum_invert?_part (k := 4) h column
  have read := NibblePair.decode_fold (fun j => ctx.wordStep round (bytes j) .outside) answer n
    fun g : Fin 3 =>
      ctx.shuffle (.xor round (.ofFin .nibblePosition n) (.ofFin .gate g) .outside)
  simp only [shuffleAt_wordStep] at read
  rw [total] at read
  simp only [columnAccumulator, Fin.getElem_fin, Vector.getElem_ofFn]
  exact read

theorem columnAccumulator_decode_flip :
    (Matrix.flip .identity 7 24 : Matrix 32).isInvertible = true ∧
      ∃ wires, columnWires ⟨[0x16]⟩ ⟨3, by decide⟩ (.flip .identity 7 24)
          (fun j => .ofFin (j.castLE (by decide))) #v[0xde, 0xad, 0xbe, 0xef] = .ok wires ∧
        ∀ n : Fin 8,
          (shuffle ⟨[0x16]⟩ (.xor ⟨3, by decide⟩ (.ofFin .nibblePosition n)
              (.ofFin .gate (2 : Fin 3)) .outside)).onBytes.decode
              (columnAccumulator ⟨[0x16]⟩ ⟨3, by decide⟩
                (fun j => .ofFin (j.castLE (by decide))) wires n).byte =
            Byte.ofNibble (Bytes.nibble (#v[0xde, 0xad, 0xbe, 0xef] : Column) n) := by
  have invertible : (Matrix.flip .identity 7 24 : Matrix 32).isInvertible = true := by
    decide +kernel
  exact ⟨invertible, columnAccumulator_decode ⟨[0x16]⟩ ⟨3, by decide⟩ invertible
    (fun j => .ofFin (j.castLE (by decide))) #v[0xde, 0xad, 0xbe, 0xef]⟩

end WhiteBox.KeyContext
