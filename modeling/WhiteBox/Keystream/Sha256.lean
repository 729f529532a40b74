import WhiteBox.Byte

/-!
# SHA-256

The standard hash of a byte string, as a total function to thirty-two bytes.

The message is closed by the byte `0x80`, by zeros up to eight bytes below a
multiple of sixty-four, and by its length in bits, most significant byte first
(`Sha256.padded`).  Each block of sixty-four bytes is folded into the eight-word
chaining state by sixty-four rounds.

The rounds of a block share a window of the last sixteen schedule words.  A round
uses the oldest word of the window, drops it and appends the next word, so the
schedule is never stored whole.
-/

namespace WhiteBox.Sha256

/-- The chaining state: eight words. -/
abbrev State := Vector UInt32 8

/-- The last sixteen words of the message schedule, oldest first. -/
abbrev Window := Vector UInt32 16

/-- Fractional bits of the cube roots of the first sixty-four primes. -/
def roundConstants : List UInt32 :=
  [0x428a2f98, 0x71374491, 0xb5c0fbcf, 0xe9b5dba5, 0x3956c25b, 0x59f111f1,
   0x923f82a4, 0xab1c5ed5, 0xd807aa98, 0x12835b01, 0x243185be, 0x550c7dc3,
   0x72be5d74, 0x80deb1fe, 0x9bdc06a7, 0xc19bf174, 0xe49b69c1, 0xefbe4786,
   0x0fc19dc6, 0x240ca1cc, 0x2de92c6f, 0x4a7484aa, 0x5cb0a9dc, 0x76f988da,
   0x983e5152, 0xa831c66d, 0xb00327c8, 0xbf597fc7, 0xc6e00bf3, 0xd5a79147,
   0x06ca6351, 0x14292967, 0x27b70a85, 0x2e1b2138, 0x4d2c6dfc, 0x53380d13,
   0x650a7354, 0x766a0abb, 0x81c2c92e, 0x92722c85, 0xa2bfe8a1, 0xa81a664b,
   0xc24b8b70, 0xc76c51a3, 0xd192e819, 0xd6990624, 0xf40e3585, 0x106aa070,
   0x19a4c116, 0x1e376c08, 0x2748774c, 0x34b0bcb5, 0x391c0cb3, 0x4ed8aa4a,
   0x5b9cca4f, 0x682e6ff3, 0x748f82ee, 0x78a5636f, 0x84c87814, 0x8cc70208,
   0x90befffa, 0xa4506ceb, 0xbef9a3f7, 0xc67178f2]

/-- Fractional bits of the square roots of the first eight primes. -/
def initial : State :=
  #v[0x6a09e667, 0xbb67ae85, 0x3c6ef372, 0xa54ff53a,
    0x510e527f, 0x9b05688c, 0x1f83d9ab, 0x5be0cd19]

/-! ## One block -/

/-- Rotates a word to the right. -/
def rotateRight (x : UInt32) (k : UInt32) : UInt32 := (x >>> k) ||| (x <<< (32 - k))

/-- The schedule word that follows a window. -/
def Window.next (w : Window) : UInt32 :=
  let s0 := rotateRight w[1] 7 ^^^ rotateRight w[1] 18 ^^^ (w[1] >>> 3)
  let s1 := rotateRight w[14] 17 ^^^ rotateRight w[14] 19 ^^^ (w[14] >>> 10)
  w[0] + s0 + w[9] + s1

/-- One round with the given constant and schedule word. -/
def round (s : State) (k w : UInt32) : State :=
  let a := s[0]; let b := s[1]; let c := s[2]; let d := s[3]
  let e := s[4]; let f := s[5]; let g := s[6]; let h := s[7]
  let s1 := rotateRight e 6 ^^^ rotateRight e 11 ^^^ rotateRight e 25
  let choice := (e &&& f) ^^^ (~~~e &&& g)
  let t1 := h + s1 + choice + k + w
  let s0 := rotateRight a 2 ^^^ rotateRight a 13 ^^^ rotateRight a 22
  let majority := (a &&& b) ^^^ (a &&& c) ^^^ (b &&& c)
  #v[t1 + (s0 + majority), a, b, c, d + t1, e, f, g]

/-- The rounds for the given constants, each with the oldest word of the window. -/
def rounds : List UInt32 → Window → State → State
  | [], _, s => s
  | k :: ks, w, s => rounds ks (w.tail.push w.next) (round s k w[0])

/-- The word whose bytes are given, most significant first. -/
def wordOfBytes (a b c d : Byte) : UInt32 := ⟨a ++ b ++ c ++ d⟩

/-- The first sixty-four bytes as sixteen words; missing bytes count as zero. -/
def blockWords (bytes : List Byte) : Window :=
  let table := bytes.toArray
  Vector.ofFn fun i =>
    wordOfBytes (table.getD (4 * i) 0) (table.getD (4 * i + 1) 0) (table.getD (4 * i + 2) 0)
      (table.getD (4 * i + 3) 0)

/-- Folds one block of sixty-four bytes into the chaining state. -/
def compress (s : State) (bytes : List Byte) : State :=
  (rounds roundConstants (blockWords bytes) s).zipWith (· + ·) s

/-! ## The whole message -/

/-- The length in bits as eight bytes, most significant first. -/
def bitLength (bytes : Nat) : List Byte :=
  (List.range 8).map fun i => BitVec.ofNat 8 ((8 * bytes) >>> (56 - 8 * i))

/-- The message, the closing byte, the zeros and the length. -/
def padded (message : List Byte) : List Byte :=
  message ++ 0x80 :: (List.replicate ((119 - message.length % 64) % 64) 0
    ++ bitLength message.length)

/-- Folds that many blocks of the byte string into the chaining state. -/
def absorb : Nat → List Byte → State → State
  | 0, _, s => s
  | n + 1, bytes, s => absorb n (bytes.drop 64) (compress s (bytes.take 64))

/-- The hash of a byte string. -/
def digest (message : List Byte) : Vector Byte 32 :=
  let bytes := padded message
  let s := absorb (bytes.length / 64) bytes initial
  Vector.ofFn fun i => s[i.val / 4].toBitVec.extractLsb' (24 - 8 * (i % 4)) 8

end WhiteBox.Sha256
