import WhiteBox.Text.Hex

/-!
# Seeds given as text

A seed is given as hexadecimal digits, with blanks allowed before and after.  Blanks
are the characters of the Unicode property White_Space.  What remains is looked at
byte by byte in UTF-8: an odd number of bytes is the first thing to be refused, then
the first byte that is no digit, then the empty seed.

The report on a byte that is no digit shows the byte as a character of the first 256
code points, escaped where that character cannot be seen.
-/

namespace WhiteBox.SeedText

/-- Whether a character has the Unicode property White_Space. -/
def isBlank (c : Char) : Bool :=
  let n := c.toNat
  (0x09 ≤ n && n ≤ 0x0d) || n == 0x20 || n == 0x85 || n == 0xa0 || n == 0x1680 ||
    (0x2000 ≤ n && n ≤ 0x200a) || n == 0x2028 || n == 0x2029 || n == 0x202f || n == 0x205f ||
    n == 0x3000

/-- The characters between the outer blanks. -/
def trim (text : List Char) : List Char :=
  ((text.dropWhile isBlank).reverse.dropWhile isBlank).reverse

/-- Why a text is not a seed. -/
inductive Fault where
  /-- Its digits do not make bytes. -/
  | digits (fault : Hex.Fault)
  /-- There are no bytes. -/
  | empty
  deriving DecidableEq, Repr

/-- The bytes of a seed. -/
def parse (text : List Char) : Except Fault (List Byte) :=
  match Hex.decode (Hex.utf8 (trim text)) with
  | .error fault => .error (.digits fault)
  | .ok [] => .error .empty
  | .ok (b :: rest) => .ok (b :: rest)

/-! ## Reports -/

/-- The number in hexadecimal digits without leading zeros. -/
def hexNumber (n : Nat) : String := String.ofList (Nat.toDigits 16 n)

/-- Whether a code point below 256 stands for a visible character or the blank. -/
def isVisible (n : Nat) : Bool := (0x20 ≤ n && n < 0x7f) || (0xa0 < n && n != 0xad)

/-- The character whose code point is the byte, between single quotes. -/
def quotedByte (b : Byte) : String :=
  let n := b.toNat
  let inner :=
    if n = 0 then "\\0"
    else if n = 0x09 then "\\t"
    else if n = 0x0a then "\\n"
    else if n = 0x0d then "\\r"
    else if n = 0x27 then "\\'"
    else if n = 0x5c then "\\\\"
    else if isVisible n then String.singleton (Char.ofNat n)
    else "\\u\x7b" ++ hexNumber n ++ "\x7d"
  "'" ++ inner ++ "'"

/-- The text that reports why digits do not make bytes. -/
def digitsMessage : Hex.Fault → String
  | .oddLength => "Odd number of digits"
  | .badDigit byte position =>
    "Invalid character " ++ quotedByte byte ++ " at position " ++ toString position

end WhiteBox.SeedText
