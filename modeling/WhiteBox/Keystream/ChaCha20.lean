import WhiteBox.Byte

/-!
# The ChaCha20 key stream

A key of thirty-two bytes determines an endless sequence of 32-bit words.  Block
`n` of the sequence is sixteen words, the result of twenty rounds on a state that
holds four constants, the key and the block number; the sequence is block `0`,
then block `1`, and so on.  The block number is a 64-bit counter, and the stream
number beside it is zero.

The counter wraps, so the words repeat after `ChaCha20.period` of them
(`ChaCha20.word_add_period`).  A search through one period has therefore seen
every word that the stream will ever give.
-/

namespace WhiteBox.ChaCha20

/-- The sixteen words that the rounds act on. -/
abbrev State := Vector UInt32 16

/-- The secret of a stream. -/
abbrev Key := Vector Byte 32

/-- Rotates a word to the left. -/
def rotateLeft (x : UInt32) (k : UInt32) : UInt32 := (x <<< k) ||| (x >>> (32 - k))

/-- Mixes the words at four places of the state. -/
def quarterRound (s : State) (i j k l : Fin 16) : State :=
  let a := s.get i + s.get j
  let d := rotateLeft (s.get l ^^^ a) 16
  let c := s.get k + d
  let b := rotateLeft (s.get j ^^^ c) 12
  let a := a + b
  let d := rotateLeft (d ^^^ a) 8
  let c := c + d
  let b := rotateLeft (b ^^^ c) 7
  (((s.set i a i.isLt).set j b j.isLt).set k c k.isLt).set l d l.isLt

/-- Four quarter rounds on the columns, then four on the diagonals. -/
def doubleRound (s : State) : State :=
  let s := quarterRound s 0 4 8 12
  let s := quarterRound s 1 5 9 13
  let s := quarterRound s 2 6 10 14
  let s := quarterRound s 3 7 11 15
  let s := quarterRound s 0 5 10 15
  let s := quarterRound s 1 6 11 12
  let s := quarterRound s 2 7 8 13
  quarterRound s 3 4 9 14

/-- The given number of double rounds. -/
def doubleRounds : Nat → State → State
  | 0, s => s
  | n + 1, s => doubleRounds n (doubleRound s)

/-- Word `i` of the key, least significant byte first. -/
def keyWord (key : Key) (i : Fin 8) : UInt32 :=
  ⟨key[4 * i.val + 3] ++ key[4 * i.val + 2] ++ key[4 * i.val + 1] ++ key[4 * i.val]⟩

/-- The state before the rounds, for the low and the high word of the block number. -/
def start (key : Key) (low high : UInt32) : State :=
  #v[0x61707865, 0x3320646e, 0x79622d32, 0x6b206574,
    keyWord key 0, keyWord key 1, keyWord key 2, keyWord key 3,
    keyWord key 4, keyWord key 5, keyWord key 6, keyWord key 7,
    low, high, 0, 0]

/-- The sixteen words of block `n`. -/
def block (key : Key) (n : Nat) : State :=
  let s := start key (UInt32.ofNat n) (UInt32.ofNat (n / UInt32.size))
  (doubleRounds 10 s).zipWith (· + ·) s

/-- Word `i` of the stream. -/
def word (key : Key) (i : Nat) : UInt32 :=
  (block key (i / 16)).get ⟨i % 16, Nat.mod_lt i (by decide)⟩

/-- The number of words after which the stream repeats. -/
def period : Nat := 16 * UInt64.size

/-- The block number is taken modulo `2 ^ 64`. -/
theorem block_add (key : Key) (n : Nat) : block key (n + UInt64.size) = block key n := by
  have low : UInt32.ofNat (n + UInt64.size) = UInt32.ofNat n := by
    apply UInt32.toNat_inj.1
    rw [UInt32.toNat_ofNat', UInt32.toNat_ofNat', UInt64.size]
    omega
  have high : UInt32.ofNat ((n + UInt64.size) / UInt32.size)
      = UInt32.ofNat (n / UInt32.size) := by
    apply UInt32.toNat_inj.1
    rw [UInt32.toNat_ofNat', UInt32.toNat_ofNat', UInt64.size, UInt32.size]
    omega
  unfold block
  rw [low, high]

/-- The stream repeats after one period. -/
theorem word_add_period (key : Key) (i : Nat) : word key (i + period) = word key i := by
  have hd : (i + period) / 16 = i / 16 + UInt64.size := by
    unfold period; omega
  have hm : (i + period) % 16 = i % 16 := by
    unfold period; omega
  simp only [word, hm]
  rw [hd, block_add]

end WhiteBox.ChaCha20
