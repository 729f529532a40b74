import WhiteBox.Proofs.Keying.Failure
import WhiteBox.Proofs.Log

/-!
# What a block mask asks of the shift

On the inside a block mask asks for the shift of slot after slot.  It stops at the first slot
whose boundary matrix cannot be built, and so asks about that slot last.

A boundary matrix is drawn invertible, so it is never refused for being singular
(`KeyContext.boundaryMixing_ne_singular`).  As far as the draws return, the first slot out of
range is therefore where the construction stops (`KeyContext.blockMask_asks`).
-/

namespace WhiteBox

variable {ε α : Type}

/-! ## The first entry that fails -/

namespace KeyContext

variable {ctx : KeyContext} {shift : Fin 16 → Nat}

/-! ## Boundary matrices -/

theorem logs_slot (ctx : KeyContext) (shift : Fin 16 → Nat) (i : Fin 16) :
    Logs (do
        let slot ← ExceptT.lift (m := StateM (List (Fin 16))) do
          modify (· ++ [i])
          pure (shift i)
        ExceptT.mk (pure (ctx.boundaryMixing slot)))
      (ctx.boundaryMixing (shift i)) [i] :=
  fun _ => rfl

/-- The bytes of an inside mask with the given mixings. -/
def mixedBytes (ctx : KeyContext) (position : BytePos) (mixings : Fin 16 → ByteMixing) :
    Vector MaskByte 16 :=
  Vector.ofFn fun i => .mixed ⟨mixings i, ctx.maskPair position .inside i⟩

theorem zipWith_maskPairs (ctx : KeyContext) (position : BytePos) (mixings : Fin 16 → ByteMixing) :
    (Vector.ofFn mixings).zipWith (fun mixing pair => MaskByte.mixed ⟨mixing, pair⟩)
      (ctx.maskPairs position .inside) = ctx.mixedBytes position mixings := by
  refine Vector.ext fun i hi => ?_
  rw [Vector.getElem_zipWith, maskPairs, mixedBytes, Vector.getElem_ofFn, Vector.getElem_ofFn,
    Vector.getElem_ofFn]

theorem blockMask_inside_ok {mixings : Fin 16 → ByteMixing}
    (built : ∀ i, ctx.boundaryMixing (shift i) = .ok (mixings i)) (position : BytePos) :
    ctx.tracedBlockMask position .inside shift =
        (.ok (ctx.mixedBytes position mixings), List.finRange 16) ∧
      ctx.blockMask position .inside shift = .ok (ctx.mixedBytes position mixings) := by
  rw [← zipWith_maskPairs]
  have entries : Logs _ _ ((List.finRange 16).map id) :=
    .ofFnM fun i => built i ▸ ctx.logs_slot shift i
  rw [List.map_id] at entries
  exact ⟨entries.bind_pure _ [], blockMask_inside built position⟩

end KeyContext

end WhiteBox
