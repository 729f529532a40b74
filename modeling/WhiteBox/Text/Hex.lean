import WhiteBox.Byte

/-!
# Bytes as hexadecimal digits

A byte is written as two lowercase digits, the high half first.  Reading takes the
bytes of a text, two for each byte read, in either case of letters.  An odd number
of them is refused first; otherwise the first that is no digit is named with its
position.  What was written reads back (`Hex.decode_encode`).
-/

namespace WhiteBox.Hex

/-! ## Writing -/

/-- The digit of a nibble. -/
def digit (n : Nibble) : Char :=
  if n.toNat < 10 then Char.ofNat (0x30 + n.toNat) else Char.ofNat (0x57 + n.toNat)

/-- The two digits of a byte. -/
def ofByte (b : Byte) : List Char := [digit (Byte.high b), digit (Byte.low b)]

/-- The digits of bytes. -/
def encode (bytes : List Byte) : List Char := bytes.flatMap ofByte

/-- The digits of bytes, as a string. -/
def text (bytes : List Byte) : String := String.ofList (encode bytes)

/-- One digit for each nibble, as a string. -/
def nibbleText (nibbles : List Nibble) : String := String.ofList (nibbles.map digit)

/-! ## Reading -/

/-- Why a text is not the digits of bytes. -/
inductive Fault where
  /-- The number of bytes of the text is odd. -/
  | oddLength
  /-- The byte at that position of the text is no digit. -/
  | badDigit (byte : Byte) (position : Nat)
  deriving DecidableEq, Repr

/-- The value of a digit, given as a byte of ASCII. -/
def value? (b : Byte) : Option Nibble :=
  let n := b.toNat
  if 0x30 ≤ n ∧ n ≤ 0x39 then some (BitVec.ofNat 4 (n - 0x30))
  else if 0x61 ≤ n ∧ n ≤ 0x66 then some (BitVec.ofNat 4 (n - 0x57))
  else if 0x41 ≤ n ∧ n ≤ 0x46 then some (BitVec.ofNat 4 (n - 0x37))
  else none

/-- The value of the digit at a position. -/
def digitAt (position : Nat) (b : Byte) : Except Fault Nibble :=
  match value? b with
  | some n => .ok n
  | none => .error (.badDigit b position)

/-- Reads pairs of digits, the first of which is at the given position. -/
def decodeFrom : Nat → List Byte → Except Fault (List Byte)
  | position, high :: low :: rest => do
    let h ← digitAt position high
    let l ← digitAt (position + 1) low
    let bytes ← decodeFrom (position + 2) rest
    pure (Byte.ofNibbles h l :: bytes)
  | _, _ => .ok []

/-- Reads a text given by its bytes. -/
def decode (text : List Byte) : Except Fault (List Byte) :=
  if text.length % 2 = 0 then decodeFrom 0 text else .error .oddLength

/-- The bytes of a text in UTF-8. -/
def utf8 (cs : List Char) : List Byte :=
  cs.flatMap fun c => (String.utf8EncodeChar c).map UInt8.toBitVec

/-! ## Reading back -/

/-- A digit takes one byte, whose value is the nibble. -/
theorem utf8_digit (n : Nibble) : ∃ b, utf8 [digit n] = [b] ∧ value? b = some n := by
  have all : ∀ n : Nibble, (utf8 [digit n]).map value? = [some n] := by decide
  have one := all n
  match h : utf8 [digit n] with
  | [] => rw [h] at one; cases one
  | [b] =>
    rw [h] at one
    exact ⟨b, rfl, by simpa using one⟩
  | _ :: _ :: _ => rw [h] at one; simp at one

/-- Two digits are read as a byte, and what follows two positions further on. -/
theorem decodeFrom_pair {high low : Byte} {h l : Nibble} (valueHigh : value? high = some h)
    (valueLow : value? low = some l) (position : Nat) (rest : List Byte) :
    decodeFrom position (high :: low :: rest) =
      (decodeFrom (position + 2) rest).map (Byte.ofNibbles h l :: ·) := by
  simp only [decodeFrom, digitAt, valueHigh, valueLow]
  rfl

theorem decodeFrom_utf8_encode (bytes : List Byte) (position : Nat) :
    decodeFrom position (utf8 (encode bytes)) = .ok bytes
      ∧ (utf8 (encode bytes)).length = 2 * bytes.length := by
  induction bytes generalizing position with
  | nil => exact ⟨rfl, rfl⟩
  | cons b rest ih =>
    obtain ⟨x, hx, vx⟩ := utf8_digit (Byte.high b)
    obtain ⟨y, hy, vy⟩ := utf8_digit (Byte.low b)
    have step : utf8 (encode (b :: rest)) = x :: y :: utf8 (encode rest) := by
      simp only [encode, ofByte, List.flatMap_cons, utf8, List.flatMap_append] at *
      simp only [List.flatMap_nil, List.append_nil] at hx hy
      simp [hx, hy]
    obtain ⟨ok, len⟩ := ih (position + 2)
    refine ⟨?_, ?_⟩
    · rw [step, decodeFrom_pair vx vy, ok, Byte.ofNibbles_high_low]
      rfl
    · rw [step]
      simp only [List.length_cons, len]
      omega

/-- What was written reads back. -/
theorem decode_encode (bytes : List Byte) : decode (utf8 (encode bytes)) = .ok bytes := by
  obtain ⟨ok, len⟩ := decodeFrom_utf8_encode bytes 0
  rw [decode, if_pos (by omega), ok]

end WhiteBox.Hex
