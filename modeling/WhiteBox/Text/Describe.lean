import WhiteBox.Exchange
import WhiteBox.Keystream

/-!
# Descriptions for people

`describe` says what a value consists of, for reports and logs: the name of the
type, and its parts by name or in order.  A description of a `KeyContext` tells the
length of the seed and nothing else about it.
-/

namespace WhiteBox

/-- Items between square brackets. -/
def describeList (items : List String) : String := "[" ++ String.intercalate ", " items ++ "]"

/-- A name followed by parts with their names. -/
def describeRecord (name : String) (parts : List (String × String)) : String :=
  name ++ " \x7b " ++ String.intercalate ", " (parts.map fun (k, v) => k ++ ": " ++ v) ++ " \x7d"

/-- The words as numbers between square brackets. -/
def describeWords {n k : Nat} (words : Vector (BitVec n) k) : String :=
  describeList (words.toList.map fun w => toString w.toNat)

/-- The name of the type of coordinates of a quantity. -/
def Quantity.typeName : Quantity → String
  | round => "Round"
  | bytePosition => "BytePos"
  | nibblePosition => "NibblePos"
  | gate => "Gate"
  | maskTablePosition => "MaskPosition"
  | mixingBijectionRow => "MixingRow"

/-- The type and the number. -/
def Coordinate.describe {q : Quantity} (c : Coordinate q) : String :=
  q.typeName ++ "(" ++ c.text ++ ")"

/-- The kind and the coordinates. -/
def Role.describe : Role → String
  | mask p s f =>
    describeRecord "Mask"
      [("position", p.describe), ("sub_position", s.describe), ("surface", f.name)]
  | tyi r p s =>
    describeRecord "Tyi"
      [("round", r.describe), ("position", p.describe), ("sub_position", s.describe)]
  | mbInverse r p s =>
    describeRecord "MbInverse"
      [("round", r.describe), ("position", p.describe), ("sub_position", s.describe)]
  | xor r p g f =>
    describeRecord "Xor"
      [("round", r.describe), ("position", p.describe), ("gate", g.describe), ("surface", f.name)]
  | round r p f =>
    describeRecord "Round" [("round", r.describe), ("position", p.describe), ("surface", f.name)]
  | mixing m none p =>
    describeRecord "MixingBijection"
      [("size", m.name), ("round", "None"), ("position", p.describe)]
  | mixing m (some r) p =>
    describeRecord "MixingBijection"
      [("size", m.name), ("round", "Some(" ++ r.describe ++ ")"), ("position", p.describe)]

/-- The bytes. -/
def Label.describe (l : Label) : String := "Label(" ++ describeWords l ++ ")"

/-- Both tables. -/
def NibbleShuffle.describe (s : NibbleShuffle) : String :=
  describeRecord "NibbleShuffle"
    [("forward", describeWords s.forward), ("inverse", describeWords s.inverse)]

/-- The width and the rows. -/
def Matrix.describe {n : Nat} (m : Matrix n) : String :=
  describeRecord ("Matrix" ++ toString n) [("rows", describeWords m.rows)]

/-- The matrix and its inverse. -/
def ByteMixing.describe (m : ByteMixing) : String :=
  describeRecord "ByteLinear"
    [("forward", m.matrix.describe), ("inverse", m.inverse.describe)]

/-- The length of the seed. -/
def KeyContext.describe (ctx : KeyContext) : String :=
  describeRecord "KeyContext" [("seed", "<" ++ toString ctx.seed.length ++ " bytes>")]

end WhiteBox
