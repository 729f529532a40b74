import WhiteBox.Keystream.Sha256
import WhiteBox.Keystream.ChaCha20
import WhiteBox.Role

/-!
# Keyed word streams

A `KeyContext` holds the secret seed of one network.  A seed and a label together
key a stream of words, the ChaCha20 stream of `KeyContext.streamKey`, which is the
hash of `KeyContext.keyInput`.  The hashed text starts with the length of the seed,
so no two pairs of seed and label share it.

A draw is a function of a `WordStream` and a position in it, and answers the
position where the next draw begins.  Draws that may reject words search up to a
given limit.  For a keyed stream the limit is `searchLimit`: after a whole period
the words repeat, and a search that has found nothing by then never will.
-/

namespace WhiteBox

/-- An endless sequence of words, by position. -/
abbrev WordStream := Nat → UInt32

/-- The number of words after which a search in a key stream gives up. -/
def searchLimit : Nat := ChaCha20.period

/-- The secret seed of one network. -/
structure KeyContext where
  /-- Its bytes, of any number. -/
  seed : List Byte
  deriving DecidableEq

namespace KeyContext

/-- A number as eight bytes, least significant first, modulo `2 ^ 64`. -/
def lengthBytes (n : Nat) : List Byte :=
  (List.range 8).map fun i => BitVec.ofNat 8 (n >>> (8 * i))

/-- The byte string that is hashed to the key of a stream. -/
def keyInput (ctx : KeyContext) (label : Label) : List Byte :=
  lengthBytes ctx.seed.length ++ ctx.seed ++ label.toList

/-- The key of the stream that belongs to a label. -/
def streamKey (ctx : KeyContext) (label : Label) : ChaCha20.Key :=
  Sha256.digest (ctx.keyInput label)

end KeyContext

end WhiteBox
