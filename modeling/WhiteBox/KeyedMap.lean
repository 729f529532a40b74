import WhiteBox.Shuffle.Draw
import WhiteBox.Matrix.Draw

/-!
# Keyed bijections

A seed and a role determine one bijection: a nibble shuffle for the roles that name
a wire, an invertible matrix for the mixing roles.  Each is the first draw from the
stream of the role's label.

Both searches stop after one period of the stream.  `KeyContext.mixingBijection`
reports that as an error.  `KeyContext.shuffle` is total: a stream without a word
that counts gives the identity, and any other stream gives what it holds.
-/

namespace WhiteBox.KeyContext

/-- The nibble shuffle of a role. -/
def shuffle (ctx : KeyContext) (role : Role) : NibbleShuffle :=
  match NibbleShuffle.draw? (ChaCha20.word (ctx.streamKey role.label)) searchLimit 0 with
  | some (s, _) => s
  | none => NibbleShuffle.identity

/-- The mixing bijection of the given width, round and position. -/
def mixingBijection (ctx : KeyContext) (size : MixingSize) (round : Option Round)
    (position : BytePos) : Except BuildError (Matrix size.bits) :=
  let key := ctx.streamKey (Role.mixing size round position).label
  match drawMatrix? size (ChaCha20.word key) searchLimit 0 with
  | some (m, _) => .ok m
  | none => .error .drawExhausted

end WhiteBox.KeyContext
