import WhiteBox.Proofs.Encoding.ShiftCalls
import WhiteBox.Proofs.Network.Check

/-!
# Mixing before and after a shift

The shift of an inside mask names, for each slot, the position whose boundary matrix mixes the
byte there.  If the bytes of a state are moved along the same map, each byte meets the matrix of
the slot that it comes from.  So it makes no difference whether a state is mixed as it stands and
then moved, or moved and then mixed along the shift (`KeyContext.blockMask_shifts`).  The map may
be any map between slots; it need not be a permutation.

A mask is its linear part, `MaskByte.linears`, followed by the shuffles of its position
(`MaskByte.encodings_eq`).  The position decides about the shuffles only.
-/

namespace WhiteBox

variable {α : Type} {n : Nat}

/-! ## Moving entries -/

/-- Entry `i` is the entry that the map names for `i`. -/
def SlotMap.gather (σ : Fin n → Fin n) (v : Vector α n) : Vector α n :=
  Vector.ofFn fun i => v.get (σ i)

/-- A map between the sixteen slots moves every block. -/
theorem SlotMap.move_eq_ok {m : SlotMap} {σ : Fin 16 → Fin 16} (h : ∀ i, m.slot i = σ i)
    (s : Block) : m.move s = .ok (gather σ s) := by
  refine ofFnM_eq_ok fun i => ?_
  have inside : m.slot i < 16 := by rw [h]; exact (σ i).isLt
  rw [dif_pos inside]
  exact congrArg (fun slot => Except.ok (s.get slot)) (Fin.ext (h i))

/-- What is done to each entry may be done before or after the entries are moved, if it is moved
with them. -/
theorem SlotMap.zipWith_gather {β γ : Type} {parts moved : Vector β n} {σ : Fin n → Fin n}
    (h : ∀ i, moved.get i = parts.get (σ i)) (f : β → α → γ) (v : Vector α n) :
    moved.zipWith f (gather σ v) = gather σ (parts.zipWith f v) := by
  refine Vector.ext fun i hi => ?_
  rw [Vector.getElem_zipWith, gather, gather, Vector.getElem_ofFn, Vector.getElem_ofFn]
  show f (moved.get ⟨i, hi⟩) _ = (parts.zipWith f v)[(σ ⟨i, hi⟩).val]
  rw [h, Vector.getElem_zipWith]
  rfl

/-! ## The linear part of a mask -/

namespace MaskByte

/-- What a byte is multiplied by, and by what again to undo it. -/
def linear : MaskByte → Encoding Byte
  | plain _ => .identity
  | mixed byte => byte.first.encoding

theorem linear_mixed (byte : MixedByte) : (mixed byte).linear = byte.first.encoding := rfl

/-- The linear part of a mask. -/
def linears (bytes : Vector MaskByte n) : Encoding (Vector Byte n) :=
  .pointwise (bytes.map linear)

theorem lawful_linear : ∀ b : MaskByte, b.linear.Lawful
  | plain _ => Encoding.lawful_identity
  | mixed byte => byte.first.lawful

theorem lawful_linears (bytes : Vector MaskByte n) : (linears bytes).Lawful :=
  .pointwise fun i hi => by
    rw [Vector.getElem_map]
    exact bytes[i].lawful_linear

/-- All bytes are mixed first, and all halves are shuffled then. -/
theorem encodings_eq (bytes : Vector MaskByte n) :
    encodings bytes = (linears bytes).composed (NibblePair.encodings (bytes.map pair)) := by
  have each (b : MaskByte) : b.encoding = b.linear.composed b.pair.encoding := by
    cases b <;> rfl
  refine congrArg₂ Encoding.mk (funext fun v => ?_) (funext fun v => ?_)
  all_goals
    refine Vector.ext fun i hi => ?_
    simp only [linears, NibblePair.encodings, Encoding.pointwise, Vector.getElem_zipWith,
      Vector.getElem_map, each]
    rfl

/-- Linear parts that move with the bytes commute with moving them, both ways. -/
theorem linears_gather {kept moved : Vector MaskByte n} {σ : Fin n → Fin n}
    (h : ∀ i, (moved.get i).linear = (kept.get (σ i)).linear) (s : Vector Byte n) :
    (linears moved).encode (SlotMap.gather σ s) = SlotMap.gather σ ((linears kept).encode s) ∧
      (linears moved).decode (SlotMap.gather σ s) = SlotMap.gather σ ((linears kept).decode s) := by
  have parts (i : Fin n) : (moved.map linear).get i = (kept.map linear).get (σ i) := by
    show (moved.map linear)[i.val] = (kept.map linear)[(σ i).val]
    rw [Vector.getElem_map, Vector.getElem_map]
    exact h i
  exact ⟨SlotMap.zipWith_gather parts _ s, SlotMap.zipWith_gather parts _ s⟩

end MaskByte

namespace KeyContext

variable {ctx : KeyContext}

/-- If the draws for all slots return, all boundary matrices can be built. -/
theorem exists_boundaryMixings (draws : ∀ i : Fin 16, ctx.HasMixing none (.ofFin i) .byte) :
    ∃ mixings : Fin 16 → ByteMixing, ∀ i : Fin 16, ctx.boundaryMixing i = .ok (mixings i) := by
  have built (i : Fin 16) : ∃ mixing, ctx.boundaryMixing i = .ok mixing := by
    obtain ⟨m, drawn⟩ := exists_mixingBijection_iff.2 (draws i)
    obtain ⟨mixing, built, -⟩ := exists_boundaryMixing ⟨(BytePos.ofFin i).le_max, drawn⟩
    exact ⟨mixing, built⟩
  exact Classical.skolem.1 built

theorem get_mixedBytes (ctx : KeyContext) (position : BytePos) (mixings : Fin 16 → ByteMixing)
    (i : Fin 16) : (ctx.mixedBytes position mixings).get i =
      .mixed ⟨mixings i, ctx.maskPair position .inside i⟩ :=
  Vector.getElem_ofFn i.isLt

/-- The shuffles of an inside mask are those of its position. -/
theorem map_pair_mixedBytes (ctx : KeyContext) (position : BytePos)
    (mixings : Fin 16 → ByteMixing) :
    (ctx.mixedBytes position mixings).map MaskByte.pair = ctx.maskPairs position .inside := by
  refine Vector.ext fun i hi => ?_
  rw [Vector.getElem_map, mixedBytes, maskPairs, Vector.getElem_ofFn, Vector.getElem_ofFn]
  rfl

/-- Inside masks mix a state before its bytes are moved along a map as they mix it after that,
along the shift by this map.  So the mask along the shift decodes a state that was mixed, moved
and shuffled at its position to the moved state. -/
theorem blockMask_shifts (ctx : KeyContext) (p q : BytePos) (σ : Fin 16 → Fin 16)
    (draws : ∀ i : Fin 16, ctx.HasMixing none (.ofFin i) .byte) :
    ∃ moved kept : Vector MaskByte 16,
      ctx.blockMask p .inside (fun i => σ i) = .ok moved ∧
        ctx.blockMask q .inside (fun i => i) = .ok kept ∧
        (∀ i, (∃ byte, moved.get i = .mixed byte) ∧ ∃ byte, kept.get i = .mixed byte) ∧
        ∀ s : Block,
          (MaskByte.linears moved).encode (SlotMap.gather σ s) =
              SlotMap.gather σ ((MaskByte.linears kept).encode s) ∧
            (MaskByte.linears moved).decode (SlotMap.gather σ s) =
              SlotMap.gather σ ((MaskByte.linears kept).decode s) ∧
            (MaskByte.encodings moved).decode
                ((NibblePair.encodings (ctx.maskPairs p .inside)).encode
                  (SlotMap.gather σ ((MaskByte.linears kept).encode s))) =
              SlotMap.gather σ s := by
  obtain ⟨mixings, built⟩ := exists_boundaryMixings draws
  obtain ⟨-, moved⟩ := blockMask_inside_ok (fun i => built (σ i)) p
  obtain ⟨-, kept⟩ := blockMask_inside_ok built q
  refine ⟨_, _, moved, kept,
    fun i => ⟨⟨_, ctx.get_mixedBytes p _ i⟩, ⟨_, ctx.get_mixedBytes q _ i⟩⟩, fun s => ?_⟩
  have same (i : Fin 16) :
      ((ctx.mixedBytes p fun i => mixings (σ i)).get i).linear =
        ((ctx.mixedBytes q mixings).get (σ i)).linear := by
    rw [get_mixedBytes, get_mixedBytes, MaskByte.linear_mixed, MaskByte.linear_mixed]
  obtain ⟨encode, decode⟩ := MaskByte.linears_gather same s
  refine ⟨encode, decode, ?_⟩
  rw [← encode, MaskByte.encodings_eq, map_pair_mixedBytes]
  exact (((MaskByte.lawful_linears _).composed (NibblePair.lawful_encodings _)).decode_encode _)

/-- The shift of the rows. -/
theorem blockMask_shifts_rows :
    (∀ i : Fin 16, HasMixing ⟨[0x16]⟩ none (.ofFin i) .byte) ∧
      ∃ moved kept : Vector MaskByte 16,
        blockMask ⟨[0x16]⟩ ⟨9, by decide⟩ .inside SlotMap.shiftRows.slot = .ok moved ∧
          blockMask ⟨[0x16]⟩ ⟨2, by decide⟩ .inside SlotMap.identity.slot = .ok kept ∧
          ∀ s : Block, ∃ shifted, SlotMap.shiftRows.move s = .ok shifted ∧
            SlotMap.shiftRows.move ((MaskByte.linears kept).encode s) =
              .ok ((MaskByte.linears moved).encode shifted) := by
  have slot (i : Fin 16) : SlotMap.shiftRows.slot i < 16 := by revert i; decide
  obtain ⟨moved, kept, masked, plain, -, commutes⟩ := blockMask_shifts ⟨[0x16]⟩ ⟨9, by decide⟩
    ⟨2, by decide⟩ (fun i => ⟨SlotMap.shiftRows.slot i, slot i⟩) hasMixing_boundary
  have moves (s : Block) : SlotMap.shiftRows.move s =
      .ok (SlotMap.gather (fun i => ⟨SlotMap.shiftRows.slot i, slot i⟩) s) :=
    SlotMap.move_eq_ok (fun _ => rfl) s
  refine ⟨hasMixing_boundary, moved, kept, masked, plain, fun s => ?_⟩
  exact ⟨_, moves s, by rw [(commutes s).1, moves]⟩

end KeyContext

end WhiteBox
