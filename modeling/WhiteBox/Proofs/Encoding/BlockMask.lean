import WhiteBox.Proofs.Draw
import WhiteBox.Proofs.Gate

/-!
# What a block mask does to a block

A block mask multiplies each byte by a matrix and then shuffles its halves.  The shuffles
belong to the position of the mask.  The matrices do not: outside there are none, which is
the identity at each byte, and inside the matrix at byte `i` is drawn for the position that
the shift names for slot `i`.  `KeyContext.IsBoundary` says which matrices they are.

So the masks of all positions begin with the same linear map, `Bytes.mix` of these matrices,
and differ in their shuffles only (`KeyContext.exists_blockMask`).
-/

namespace WhiteBox

/-! ## Mixing byte by byte -/

namespace Bytes

variable {k : Nat} {matrices inverses : Fin k → Matrix 8}

/-- Multiplies each byte by its own matrix. -/
def mix (matrices : Fin k → Matrix 8) (v : Vector Byte k) : Vector Byte k :=
  Vector.ofFn fun i => (matrices i).apply (v.get i)

theorem getElem_mix (v : Vector Byte k) (i : Nat) (hi : i < k) :
    (mix matrices v)[i] = (matrices ⟨i, hi⟩).apply v[i] :=
  Vector.getElem_ofFn hi

theorem linear_mix : Linear (mix matrices) where
  map_zero := by
    refine Vector.ext fun i hi => ?_
    rw [getElem_mix, getElem_zero]
    exact Matrix.apply_zero _
  map_xor u v := by
    refine Vector.ext fun i hi => ?_
    rw [getElem_mix, getElem_xor, getElem_xor, Matrix.apply_xor, getElem_mix, getElem_mix]

theorem mix_identity (v : Vector Byte k) : mix (fun _ => .identity) v = v := by
  refine Vector.ext fun i hi => ?_
  rw [getElem_mix, Matrix.apply_identity]

/-- The inverses that elimination finds undo the mixing. -/
theorem mix_invert? (h : ∀ i, (matrices i).invert? = some (inverses i)) (v : Vector Byte k) :
    mix inverses (mix matrices v) = v := by
  refine Vector.ext fun i hi => ?_
  rw [getElem_mix, getElem_mix, (Matrix.invert?_apply (h _)).1]

end Bytes

namespace MaskByte

/-- The matrix that a byte of a mask's output is multiplied by. -/
def matrix : MaskByte → Matrix 8
  | plain _ => .identity
  | mixed byte => byte.first.matrix

/-- The shuffles of its halves. -/
def pair : MaskByte → NibblePair
  | plain pair => pair
  | mixed byte => byte.second

theorem encode_eq (b : MaskByte) (v : Byte) :
    b.encoding.encode v = b.pair.encoding.encode (b.matrix.apply v) := by
  cases b with
  | plain pair => exact congrArg pair.encoding.encode (Matrix.apply_identity v).symm
  | mixed byte => rfl

/-- All bytes are mixed first, and all halves are shuffled then. -/
theorem encodings_encode {k : Nat} {bytes : Vector MaskByte k} {pairs : Vector NibblePair k}
    {matrices : Fin k → Matrix 8} (hp : ∀ (i : Nat) (hi : i < k), bytes[i].pair = pairs[i])
    (hm : ∀ (i : Nat) (hi : i < k), bytes[i].matrix = matrices ⟨i, hi⟩) (v : Vector Byte k) :
    (MaskByte.encodings bytes).encode v =
      (NibblePair.encodings pairs).encode (Bytes.mix matrices v) := by
  refine Vector.ext fun i hi => ?_
  simp only [MaskByte.encodings, NibblePair.encodings, Encoding.pointwise, Vector.getElem_zipWith,
    Vector.getElem_map, encode_eq, Bytes.getElem_mix, hp, hm]

end MaskByte

/-! ## The masks of a context -/

namespace KeyContext

variable {ctx : KeyContext} {surface : Surface} {shift : Fin 16 → Nat}
  {matrices : Fin 16 → Matrix 8}

theorem shuffleAt_maskPairs (ctx : KeyContext) (position : BytePos) (surface : Surface)
    (n : Fin 32) :
    NibblePair.shuffleAt (ctx.maskPairs position surface) n =
      ctx.shuffle (.mask position (.ofFin .nibblePosition n) surface) :=
  NibblePair.shuffleAt_ofWires (k := 16) (fun n => ctx.maskEncoding position n surface)
    (by decide) n (by decide)

/-- The matrices that the masks of a surface multiply the bytes of a block by. -/
def IsBoundary (ctx : KeyContext) (shift : Fin 16 → Nat) (matrices : Fin 16 → Matrix 8) :
    Surface → Prop
  | .outside => ∀ i, matrices i = .identity
  | .inside => ∀ i, ∃ h : shift i ≤ Quantity.bytePosition.max,
      ctx.mixingBijection .byte none ⟨shift i, h⟩ = .ok (matrices i)

theorem exists_isBoundary (inRange : ∀ i, shift i ≤ Quantity.bytePosition.max)
    (draws : surface = .inside → ∀ i, ctx.HasMixing none ⟨shift i, inRange i⟩ .byte) :
    ∃ matrices, ctx.IsBoundary shift matrices surface := by
  cases surface with
  | outside => exact ⟨fun _ => .identity, fun _ => rfl⟩
  | inside =>
    have drawn (i : Fin 16) := exists_mixingBijection_iff.2 (draws rfl i)
    choose matrices h using drawn
    exact ⟨matrices, fun i => ⟨inRange i, h i⟩⟩

/-- A boundary matrix is drawn invertible, so it is accepted. -/
theorem exists_boundaryMixing {position : Nat} {m : Matrix 8}
    (h : ∃ h : position ≤ Quantity.bytePosition.max,
      ctx.mixingBijection .byte none ⟨position, h⟩ = .ok m) :
    ∃ mixing : ByteMixing, ctx.boundaryMixing position = .ok mixing ∧ mixing.matrix = m := by
  obtain ⟨inRange, draw⟩ := h
  obtain ⟨inverse, found⟩ := exists_invert?_of_mixingBijection draw
  refine ⟨⟨m, inverse, found⟩, ?_, rfl⟩
  rw [boundaryMixing, Coordinate.ofNat_of_le inRange, ok_bind, draw, ok_bind]
  exact ByteMixing.ofMatrix_matrix ⟨m, inverse, found⟩

/-- On the inside, all matrices are built before any byte is put together. -/
theorem blockMask_inside_eq (ctx : KeyContext) (position : BytePos) (shift : Fin 16 → Nat) :
    ctx.blockMask position .inside shift =
      (Vector.ofFnM fun i => ctx.boundaryMixing (shift i)) >>= fun mixings =>
        pure (mixings.zipWith (fun mixing pair => MaskByte.mixed ⟨mixing, pair⟩)
          (ctx.maskPairs position .inside)) := by
  have asked := ofFnM_exceptT fun i => ctx.boundaryMixing (shift i)
  rw [← asked]
  exact bind_exceptT _ _

theorem blockMask_inside {mixings : Fin 16 → ByteMixing}
    (h : ∀ i, ctx.boundaryMixing (shift i) = .ok (mixings i)) (position : BytePos) :
    ctx.blockMask position .inside shift = .ok ((Vector.ofFn mixings).zipWith
      (fun mixing pair => MaskByte.mixed ⟨mixing, pair⟩) (ctx.maskPairs position .inside)) := by
  rw [blockMask_inside_eq, ofFnM_eq_ok h, ok_bind]
  rfl

/-- The mask at a position can be built.  It mixes as all masks of the surface do, and then
shuffles as its position says. -/
theorem exists_blockMask (boundary : ctx.IsBoundary shift matrices surface) (position : BytePos) :
    ∃ bytes, ctx.blockMask position surface shift = .ok bytes ∧
      ∀ v, (MaskByte.encodings bytes).encode v =
        (NibblePair.encodings (ctx.maskPairs position surface)).encode (Bytes.mix matrices v) := by
  cases surface with
  | outside =>
    refine ⟨(ctx.maskPairs position .outside).map MaskByte.plain, rfl, fun v => ?_⟩
    refine MaskByte.encodings_encode (fun i hi => ?_) (fun i hi => ?_) v
    · rw [Vector.getElem_map]
      rfl
    · rw [Vector.getElem_map, boundary ⟨i, hi⟩]
      rfl
  | inside =>
    choose mixings built same using fun i => exists_boundaryMixing (boundary i)
    refine ⟨_, blockMask_inside built position, fun v => ?_⟩
    refine MaskByte.encodings_encode (fun i hi => ?_) (fun i hi => ?_) v
    · rw [Vector.getElem_zipWith]
      rfl
    · rw [Vector.getElem_zipWith, Vector.getElem_ofFn]
      exact same ⟨i, hi⟩

end KeyContext

end WhiteBox
