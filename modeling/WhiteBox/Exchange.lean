import WhiteBox.Text.Json
import WhiteBox.Text.Json.Reader
import WhiteBox.Encoding.MaskByte
import WhiteBox.Shuffle.Table
import WhiteBox.Table
import WhiteBox.Role

/-!
# The exchanged form of values

Keys, encodings and tables are exchanged as JSON.  For each type that may be
exchanged, `toJson` gives the written form and `reader` takes it back; tables are
only written.

Derived parts are not written: a shuffle is its forward table, a byte mixing is its
matrix, and reading either builds the inverse afresh.  So a reader rejects a table
that is no permutation, a matrix without inverse, and a coordinate out of range.
-/

namespace WhiteBox

/-- The numbers of a vector, in order. -/
def Json.naturals {n k : Nat} (words : Vector (BitVec n) k) : Json :=
  .array (words.toList.map fun w => .natural w.toNat)

/-- A word of `n` bits. -/
def Reader.word (n : Nat) : Reader (BitVec n) :=
  (Reader.natural (BitVec.allOnes n).toNat).map (BitVec.ofNat n)

/-! ## Coordinates, roles and labels -/

/-- The plain number. -/
def Coordinate.toJson {q : Quantity} (c : Coordinate q) : Json := .natural c.val

/-- A number that fits a byte and is within the range of the quantity. -/
def Coordinate.reader (q : Quantity) : Reader (Coordinate q) :=
  (Reader.natural 255).check (Coordinate.ofNat q)

/-- The name of the surface. -/
def Surface.name : Surface → String
  | inside => "Inside"
  | outside => "Outside"

/-- The name as a text. -/
def Surface.toJson (f : Surface) : Json := .text f.name

/-- The name of a surface. -/
def Surface.reader : Reader Surface :=
  .choice [("Inside", .plain .inside), ("Outside", .plain .outside)]

/-- The name of the width. -/
def MixingSize.name : MixingSize → String
  | byte => "Byte"
  | word => "Word"
  | block => "Block"

/-- The name as a text. -/
def MixingSize.toJson (m : MixingSize) : Json := .text m.name

/-- The name of a width. -/
def MixingSize.reader : Reader MixingSize :=
  .choice [("Byte", .plain .byte), ("Word", .plain .word), ("Block", .plain .block)]

namespace Role

/-- The name of the kind of role. -/
def kindName : Role → String
  | mask _ _ _ => "Mask"
  | tyi _ _ _ => "Tyi"
  | mbInverse _ _ _ => "MbInverse"
  | xor _ _ _ _ => "Xor"
  | round _ _ _ => "Round"
  | mixing _ _ _ => "MixingBijection"

/-- The coordinates by name. -/
def fieldsJson : Role → List (String × Json)
  | mask p s f => [("position", p.toJson), ("sub_position", s.toJson), ("surface", f.toJson)]
  | tyi r p s => [("round", r.toJson), ("position", p.toJson), ("sub_position", s.toJson)]
  | mbInverse r p s => [("round", r.toJson), ("position", p.toJson), ("sub_position", s.toJson)]
  | xor r p g f =>
    [("round", r.toJson), ("position", p.toJson), ("gate", g.toJson), ("surface", f.toJson)]
  | round r p f => [("round", r.toJson), ("position", p.toJson), ("surface", f.toJson)]
  | mixing m none p => [("size", m.toJson), ("round", .null), ("position", p.toJson)]
  | mixing m (some r) p => [("size", m.toJson), ("round", r.toJson), ("position", p.toJson)]

/-- The kind with its coordinates. -/
def toJson (role : Role) : Json := .variant role.kindName (.object role.fieldsJson)

/-- A coordinate that has to be there. -/
def coordinateField {β : Type} (name : String) (q : Quantity) (rest : Fields β) :
    Fields (Coordinate q × β) :=
  .field name (Coordinate.reader q) none rest

/-- A surface that has to be there. -/
def surfaceField {β : Type} (rest : Fields β) : Fields (Surface × β) :=
  .field "surface" Surface.reader none rest

/-- The coordinates of a mask. -/
def maskReader : Reader Role :=
  (Reader.record <| coordinateField "position" .bytePosition <|
    coordinateField "sub_position" .nibblePosition <| surfaceField .none).map
    fun (p, s, f, ()) => mask p s f

/-- The coordinates of a nibble of a table output. -/
def tableReader (role : Round → BytePos → NibblePos → Role) : Reader Role :=
  (Reader.record <| coordinateField "round" .round <| coordinateField "position" .bytePosition <|
    coordinateField "sub_position" .nibblePosition .none).map
    fun (r, p, s, ()) => role r p s

/-- The coordinates of an accumulator. -/
def xorReader : Reader Role :=
  (Reader.record <| coordinateField "round" .round <| coordinateField "position" .nibblePosition <|
    coordinateField "gate" .gate <| surfaceField .none).map
    fun (r, p, g, f, ()) => xor r p g f

/-- The coordinates of a nibble of half a round. -/
def roundReader : Reader Role :=
  (Reader.record <| coordinateField "round" .round <| coordinateField "position" .nibblePosition <|
    surfaceField .none).map
    fun (r, p, f, ()) => round r p f

/-- The coordinates of a mixing bijection, whose round may be left out. -/
def mixingReader : Reader Role :=
  (Reader.record <| .field "size" MixingSize.reader none <|
    .field "round" (Reader.optional (Coordinate.reader .round)) (some none) <|
    coordinateField "position" .bytePosition .none).map
    fun (m, r, p, ()) => mixing m r p

/-- A kind with its coordinates. -/
def reader : Reader Role :=
  .choice [("Mask", .carrying maskReader), ("Tyi", .carrying (tableReader tyi)),
    ("MbInverse", .carrying (tableReader mbInverse)), ("Xor", .carrying xorReader),
    ("Round", .carrying roundReader), ("MixingBijection", .carrying mixingReader)]

end Role

/-- The bytes as numbers. -/
def Label.toJson (l : Label) : Json := .naturals l

/-- Sixteen bytes. -/
def Label.reader : Reader Label := .vector 16 (.word 8)

/-! ## Shuffles and matrices -/

/-- The forward table. -/
def NibbleShuffle.toJson (s : NibbleShuffle) : Json := .naturals s.forward

/-- Sixteen bytes that are the nibbles in some order. -/
def NibbleShuffle.reader : Reader NibbleShuffle :=
  (Reader.vector 16 (.word 8)).check NibbleShuffle.ofTable

/-- The rows as numbers. -/
def Matrix.toJson {n : Nat} (m : Matrix n) : Json := .object [("rows", .naturals m.rows)]

/-- As many rows as the matrix is wide. -/
def Matrix.reader (n : Nat) : Reader (Matrix n) :=
  (Reader.record (.field "rows" (.vector n (.word n)) none .none)).map fun (rows, ()) => ⟨rows⟩

/-- The matrix that encodes. -/
def ByteMixing.toJson (m : ByteMixing) : Json := m.matrix.toJson

/-- An invertible matrix. -/
def ByteMixing.reader : Reader ByteMixing := (Matrix.reader 8).check ByteMixing.ofMatrix

/-! ## Byte encodings and vectors of them -/

/-- Both shuffles by name. -/
def NibblePair.toJson (p : NibblePair) : Json :=
  .object [("high", p.high.toJson), ("low", p.low.toJson)]

/-- Both shuffles by name. -/
def NibblePair.reader : Reader NibblePair :=
  (Reader.record (.field "high" NibbleShuffle.reader none
    (.field "low" NibbleShuffle.reader none .none))).map fun (high, low, ()) => ⟨high, low⟩

/-- Both parts by name. -/
def MixedByte.toJson (m : MixedByte) : Json :=
  .object [("first", m.first.toJson), ("second", m.second.toJson)]

/-- Both parts by name. -/
def MixedByte.reader : Reader MixedByte :=
  (Reader.record (.field "first" ByteMixing.reader none
    (.field "second" NibblePair.reader none .none))).map fun (first, second, ()) => ⟨first, second⟩

/-- Which of the two it is, with its content. -/
def MaskByte.toJson : MaskByte → Json
  | plain pair => .variant "Plain" pair.toJson
  | mixed byte => .variant "Mixed" byte.toJson

/-- Which of the two it is, with its content. -/
def MaskByte.reader : Reader MaskByte :=
  .choice [("Plain", .carrying (NibblePair.reader.map plain)),
    ("Mixed", .carrying (MixedByte.reader.map mixed))]

/-- The bytes in order. -/
def NibblePair.vectorJson {n : Nat} (pairs : Vector NibblePair n) : Json :=
  .array (pairs.toList.map NibblePair.toJson)

/-- That many bytes in order. -/
def NibblePair.vectorReader (n : Nat) : Reader (Vector NibblePair n) :=
  .vector n NibblePair.reader

/-! ## Tables -/

/-- The mask and the position. -/
def MaskTable.toJson (t : MaskTable) : Json :=
  .object [("mask", t.mask.toJson), ("position", t.position.toJson)]

/-- The inverse and the row. -/
def MixingInverseTable.toJson (t : MixingInverseTable) : Json :=
  .object [("mb_inverse", t.inverse.toJson), ("row", t.row.toJson)]

/-- The XOR table has no parameters. -/
def xorTableJson : Json := .null

end WhiteBox
