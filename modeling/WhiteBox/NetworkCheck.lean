import WhiteBox.Wire
import WhiteBox.Table
import WhiteBox.SlotMap

/-!
# Checking a network on samples

A sample is a round and a byte position.  At each sample three things are tried.

* The block mask encoding, on both surfaces, gives back each block of sixteen equal
  bytes.
* The word encoding of the round, on both surfaces, gives back one column for each
  byte.
* An XOR gate, fed by two inverse mixing tables of one column, answers the XOR of
  what the tables hold.  The gate decodes with encodings that are derived on their
  own, not taken from the tables.

The first that goes wrong is the failure.
-/

namespace WhiteBox

/-- What went wrong in a check. -/
inductive CheckFailure where
  /-- Building an encoding or a table failed. -/
  | build (cause : BuildError)
  /-- Building the block mask at a position failed. -/
  | blockMaskBuild (position : BytePos) (cause : BuildError)
  /-- The block mask does not give back the block of sixteen times the byte. -/
  | blockMask (position : BytePos) (surface : Surface) (byte : Byte)
  /-- The word encoding does not give back a column. -/
  | wordStep (round : Round) (position : BytePos) (surface : Surface)
  /-- The XOR gate of the column answers something else. -/
  | xorGate (round : Round) (column : Nat)
  deriving DecidableEq, Repr

namespace NetworkCheck

/-- All bytes in order. -/
def allBytes : List Byte := (List.range 256).map (BitVec.ofNat 8)

/-- Holds a construction to be free of errors. -/
def built {α : Type} : Except BuildError α → Except CheckFailure α
  | .ok a => .ok a
  | .error cause => .error (.build cause)

/-- Fails unless the condition holds. -/
def ensure (holds : Bool) (failure : CheckFailure) : Except CheckFailure Unit :=
  if holds then .ok () else .error failure

/-- Whether decoding gives back an encoded value. -/
def roundTrips {α : Type} [DecidableEq α] (e : Encoding α) (v : α) : Bool :=
  decide (e.decode (e.encode v) = v)

/-- The column that is tried for a byte. -/
def sampleColumn (v : Byte) : Column := #v[v, ~~~v, v.rotateLeft 3, v ^^^ 0x5a]

/-- Tries both wide encodings on one surface. -/
def checkSurface (ctx : KeyContext) (round : Round) (position : BytePos) (surface : Surface) :
    Except CheckFailure Unit := do
  let mask ← match ctx.blockMask position surface SlotMap.shiftRows.slot with
    | .ok mask => .ok mask
    | .error cause => .error (.blockMaskBuild position cause)
  let block := MaskByte.encodings mask
  let word := NibblePair.encodings (ctx.wordStep round position surface)
  allBytes.forM fun v => do
    ensure (roundTrips block (Vector.replicate 16 v)) (.blockMask position surface v)
    ensure (roundTrips word (sampleColumn v)) (.wordStep round position surface)

/-- Tries the XOR gate of the first nibble of the column that holds a position. -/
def checkXorGate (ctx : KeyContext) (round : Round) (position : BytePos) :
    Except CheckFailure Unit := do
  let column := position.val / 4
  let columnPosition ← built (Coordinate.ofNat .bytePosition column)
  let mixing ← built (ctx.mixingBijection .word (some round) columnPosition)
  let byte0 ← built (Coordinate.ofNat .bytePosition (column * 4))
  let byte1 ← built (Coordinate.ofNat .bytePosition (column * 4 + 1))
  let table0 ← built (MixingInverseTable.ofMixing mixing 0)
  let table1 ← built (MixingInverseTable.ofMixing mixing 1)
  let wires (byte : BytePos) := NibblePair.encodings (ctx.wordStep round byte .outside)
  let producer0 := ByteTable.encoded .identity table0.table (wires byte0)
  let producer1 := ByteTable.encoded .identity table1.table (wires byte1)
  let nibble ← built (Coordinate.ofNat .nibblePosition 0)
  let gatePosition ← built (Coordinate.ofNat .nibblePosition (column * 8))
  let gate ← built (Coordinate.ofNat .gate 0)
  let input (byte : BytePos) := (ctx.stepEncoding round byte nibble .outside).onBytes
  let output := (ctx.xorEncoding round gatePosition gate .outside).onBytes
  let xor := ByteTable.encoded (.concat (input byte0) (input byte1)) xorTable output
  allBytes.forM fun a => do
    let wireA := (producer0 a)[0]
    let plainA := (table0.table a)[0]
    [0x00, 0x3c, 0xa5, 0xff].forM fun b => do
      let wire := (wireA &&& 0xf0) ||| ((producer1 b)[0] >>> 4)
      let plain := (plainA ^^^ (table1.table b)[0]) >>> 4
      ensure (output.decode (xor wire) == plain) (.xorGate round column)

/-- Tries everything at one sample. -/
def checkSample (ctx : KeyContext) (sample : Nat) : Except CheckFailure Unit := do
  let round ← built (Coordinate.ofNat .round (sample % 10))
  let position ← built (Coordinate.ofNat .bytePosition (sample % 16))
  checkSurface ctx round position .inside
  checkSurface ctx round position .outside
  checkXorGate ctx round position

/-- Tries everything at that many samples. -/
def check (ctx : KeyContext) (samples : Nat) : Except CheckFailure Unit :=
  (List.range samples).forM (checkSample ctx)

end NetworkCheck

end WhiteBox
