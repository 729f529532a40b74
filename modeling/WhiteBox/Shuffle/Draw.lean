import WhiteBox.Shuffle
import WhiteBox.Keystream

/-!
# Drawing a shuffle

A shuffle is drawn by walking down the forward table: for `i` from fifteen to one,
entry `i` is exchanged with an entry `j` chosen among `0..i`.

A choice among `n` takes one word `v` and looks at the product `v * n`.  Its upper
half, below `n`, is the choice.  The word counts only if the lower half is below
`acceptedWidth n`, the largest multiple of `n` by a power of two that fits 32 bits;
this makes all choices equally likely.  A word that does not count is skipped.
-/

namespace WhiteBox

/-- The lower halves that count in a choice among `n`: those below `n` times the
power of two that brings its highest bit to the top of the word. -/
def acceptedWidth (n : Nat) : Nat := n <<< (31 - n.log2)

/-- The choice among `n` that a word makes, if it counts. -/
def choiceOfWord? (n : Nat) (v : UInt32) : Option Nat :=
  let product := v.toNat * n
  if product % UInt32.size < acceptedWidth n then some (product / UInt32.size) else none

/-- A choice is below the number it is made among. -/
theorem choiceOfWord?_lt {n c : Nat} {v : UInt32} (h : choiceOfWord? n v = some c) : c < n := by
  unfold choiceOfWord? at h
  simp only at h
  split at h
  · simp only [Option.some.injEq] at h
    subst h
    have hv : v.toNat < UInt32.size := v.toNat_lt
    have hn : 0 < n := by
      rcases Nat.eq_zero_or_pos n with h0 | h0
      · subst h0; simp [acceptedWidth] at *
      · exact h0
    apply Nat.div_lt_of_lt_mul
    exact Nat.mul_lt_mul_of_pos_right hv hn
  · cases h

/-- The first choice among `n` from a position on, and the position after its
word.  Gives up after `limit` words. -/
def drawChoice? (s : WordStream) (n : Nat) : Nat → Nat → Option (Nat × Nat)
  | 0, _ => none
  | limit + 1, pos =>
    match choiceOfWord? n (s pos) with
    | some c => some (c, pos + 1)
    | none => drawChoice? s n limit (pos + 1)

/-- Choices among `i + 1`, `i`, …, two, and the position after them. -/
def drawChoices? (s : WordStream) (limit : Nat) : Nat → Nat → Option (List Nibble × Nat)
  | 0, pos => some ([], pos)
  | i + 1, pos => do
    let (j, pos) ← drawChoice? s (i + 2) limit pos
    let (rest, pos) ← drawChoices? s limit i pos
    pure (BitVec.ofNat 4 j :: rest, pos)

namespace NibbleShuffle

/-- Exchanges entry `i` with the first choice, entry `i - 1` with the second, and
so on. -/
def arrange : Nat → List Nibble → NibbleShuffle → NibbleShuffle
  | i + 1, j :: rest, s => arrange i rest (s.swap (BitVec.ofNat 4 (i + 1)) j)
  | _, _, s => s

/-- Draws a shuffle from a position on; also gives the position after it. -/
def draw? (s : WordStream) (limit pos : Nat) : Option (NibbleShuffle × Nat) := do
  let (choices, pos) ← drawChoices? s limit 15 pos
  pure (arrange 15 choices identity, pos)

end NibbleShuffle

end WhiteBox
