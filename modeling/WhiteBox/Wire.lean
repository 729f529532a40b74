import WhiteBox.KeyedMap
import WhiteBox.Encoding.MaskByte

/-!
# The encodings of the wires

Every wire of the network carries an encoded value.  The table that drives the wire
encodes and the table that reads it decodes, and both derive the encoding from the
same coordinates, which is the only way they agree.

A wire of one nibble has a role, and is encoded by the shuffle of that role.  There is
a derivation for each kind of wire.  The wider values are put together from nibble
wires: byte `i` of a word or block has the shuffles at nibbles `2i` (high half) and
`2i + 1` (low half).

The block mask on the inside surface also mixes byte `i` with the boundary matrix
at the position that the shift names for slot `i`.  `KeyContext.blockMaskM` asks
for the shift in an arbitrary monad, slot after slot, and stops at the first
position that is out of range; `KeyContext.blockMask` is the case of a plain
function and `KeyContext.tracedBlockMask` also lists the slots it asked about.
-/

namespace WhiteBox

/-- The encodings of the wires at the two nibbles of a byte. -/
def NibblePair.ofWires (wire : NibblePos → NibbleShuffle) (nibbles : NibblePos × NibblePos) :
    NibblePair :=
  ⟨wire nibbles.1, wire nibbles.2⟩

namespace KeyContext

/-! ## Wires of one nibble -/

/-- Encoding of a nibble of the output of an input or output mask. -/
def maskEncoding (ctx : KeyContext) (position : BytePos) (subPosition : NibblePos)
    (surface : Surface) : NibbleShuffle :=
  ctx.shuffle (.mask position subPosition surface)

/-- Encoding of a nibble of the output of a round table. -/
def tyiEncoding (ctx : KeyContext) (round : Round) (position : BytePos)
    (subPosition : NibblePos) : NibbleShuffle :=
  ctx.shuffle (.tyi round position subPosition)

/-- Encoding of a nibble of the output of an inverse mixing table. -/
def mbInverseEncoding (ctx : KeyContext) (round : Round) (position : BytePos)
    (subPosition : NibblePos) : NibbleShuffle :=
  ctx.shuffle (.mbInverse round position subPosition)

/-- That of a round table inside, and that of an inverse mixing table outside. -/
def stepEncoding (ctx : KeyContext) (round : Round) (position : BytePos)
    (subPosition : NibblePos) : Surface → NibbleShuffle
  | .inside => ctx.tyiEncoding round position subPosition
  | .outside => ctx.mbInverseEncoding round position subPosition

/-- Encoding of a nibble of the accumulator behind a gate. -/
def xorEncoding (ctx : KeyContext) (round : Round) (position : NibblePos) (gate : Gate)
    (surface : Surface) : NibbleShuffle :=
  ctx.shuffle (.xor round position gate surface)

/-- Encoding of a nibble of the output of half a round. -/
def roundEncoding (ctx : KeyContext) (round : Round) (position : NibblePos)
    (surface : Surface) : NibbleShuffle :=
  ctx.shuffle (.round round position surface)

/-! ## Wide values -/

/-- Encoding of the 32-bit output of a round table (inside) or of an inverse mixing
table (outside). -/
def wordStep (ctx : KeyContext) (round : Round) (position : BytePos) (surface : Surface) :
    Vector NibblePair 4 :=
  Vector.ofFn fun i =>
    .ofWires (fun n => ctx.stepEncoding round position n surface)
      (NibblePos.pair (i.castLE (by decide)))

/-- Encoding of one byte of the output of half a round.  Fails where the position
has no nibble positions. -/
def byteRound (ctx : KeyContext) (round : Round) (position : BytePos) (surface : Surface) :
    Except BuildError NibblePair := do
  let nibbles ← position.nibbles
  pure (.ofWires (fun n => ctx.roundEncoding round n surface) nibbles)

/-- Encoding of the whole output of half a round, in state order. -/
def blockRound (ctx : KeyContext) (round : Round) (surface : Surface) : Vector NibblePair 16 :=
  Vector.ofFn fun i =>
    .ofWires (fun n => ctx.roundEncoding round n surface) (NibblePos.pair i)

/-- The shuffles of byte `i` of the mask at a position. -/
def maskPair (ctx : KeyContext) (position : BytePos) (surface : Surface) (i : Fin 16) :
    NibblePair :=
  .ofWires (fun n => ctx.maskEncoding position n surface) (NibblePos.pair i)

/-- The shuffles of the mask at a position. -/
def maskPairs (ctx : KeyContext) (position : BytePos) (surface : Surface) :
    Vector NibblePair 16 :=
  Vector.ofFn (ctx.maskPair position surface)

/-- The matrix that mixes a byte at the mask boundary. -/
def boundaryMixing (ctx : KeyContext) (position : Nat) : Except BuildError ByteMixing := do
  let position ← Coordinate.ofNat .bytePosition position
  let m ← ctx.mixingBijection .byte none position
  ByteMixing.ofMatrix m

/-- Encoding of the output of the mask at a position, with the shift asked for in a
monad. -/
def blockMaskM {m : Type → Type} [Monad m] (ctx : KeyContext) (position : BytePos)
    (surface : Surface) (shift : Fin 16 → m Nat) : ExceptT BuildError m (Vector MaskByte 16) := do
  let pairs := ctx.maskPairs position surface
  match surface with
  | .outside => pure (pairs.map MaskByte.plain)
  | .inside =>
    let mixings ← Vector.ofFnM fun i => do
      let slot ← ExceptT.lift (shift i)
      ExceptT.mk (pure (ctx.boundaryMixing slot))
    pure (mixings.zipWith (fun mixing pair => MaskByte.mixed ⟨mixing, pair⟩) pairs)

/-- Encoding of the output of the mask at a position. -/
def blockMask (ctx : KeyContext) (position : BytePos) (surface : Surface)
    (shift : Fin 16 → Nat) : Except BuildError (Vector MaskByte 16) :=
  Id.run (ctx.blockMaskM position surface fun i => pure (shift i)).run

/-- The same encoding, and the slots whose shift was asked for, in order. -/
def tracedBlockMask (ctx : KeyContext) (position : BytePos) (surface : Surface)
    (shift : Fin 16 → Nat) : Except BuildError (Vector MaskByte 16) × List (Fin 16) :=
  let ask (i : Fin 16) : StateM (List (Fin 16)) Nat := do
    modify (· ++ [i])
    pure (shift i)
  Id.run ((ctx.blockMaskM position surface ask).run.run [])

end KeyContext

end WhiteBox
