import WhiteBox.Table

/-!
# Sums and nibbles of byte vectors

The sum of two byte vectors is the exclusive or of their bytes, and `Bytes.sum` adds up a
list of them.  Two ways to take a vector apart respect sums.

*Nibbles.*  `Bytes.nibble` numbers the halves of the bytes, the high half of a byte before
its low half, and `Bytes.ofNibbles` puts them together again.

*Places.*  A vector is the sum of its bytes, each alone at its place
(`Bytes.sum_part`).

`Bytes.Linear` collects what is used of a function that respects sums.  Reading a vector
as one little-endian word is such a function: bit `8k + b` of the word is bit `b` of
byte `k` (`Bytes.getLsbD_toWord`).
-/

namespace WhiteBox

/-! ## Halves of a byte as shifts and masks -/

theorem Byte.ushiftRight_four (b : Byte) : b >>> 4 = Byte.ofNibble (Byte.high b) := by
  revert b; decide +kernel

theorem Byte.and_lowMask (b : Byte) : b &&& 0x0f = Byte.ofNibble (Byte.low b) := by
  revert b; decide +kernel

theorem Byte.and_highMask (b : Byte) : b &&& 0xf0 = Byte.ofNibbles (Byte.high b) 0 := by
  revert b; decide +kernel

theorem Byte.shiftLeft_four (b : Byte) : b <<< 4 = Byte.ofNibbles (Byte.low b) 0 := by
  revert b; decide +kernel

theorem Byte.ofNibbles_or (high low : Nibble) :
    Byte.ofNibbles high 0 ||| Byte.ofNibble low = Byte.ofNibbles high low := by
  revert high low; decide +kernel

theorem Byte.ofNibble_lt (n : Nibble) : Byte.ofNibble n < 16 := by
  revert n; decide

/-- A byte below sixteen is its low half. -/
theorem Byte.ofNibble_low_of_lt {b : Byte} (h : b < 16) : Byte.ofNibble (Byte.low b) = b := by
  revert b; decide +kernel

theorem Byte.high_xor (a b : Byte) : Byte.high (a ^^^ b) = Byte.high a ^^^ Byte.high b :=
  BitVec.extractLsb'_xor

theorem Byte.low_xor (a b : Byte) : Byte.low (a ^^^ b) = Byte.low a ^^^ Byte.low b :=
  BitVec.extractLsb'_xor

/-- The sum of a list of nibbles. -/
def Nibble.sum (l : List Nibble) : Nibble := l.foldr (· ^^^ ·) 0

@[simp] theorem Nibble.sum_nil : Nibble.sum [] = 0#4 := rfl

@[simp] theorem Nibble.sum_cons (x : Nibble) (l : List Nibble) :
    Nibble.sum (x :: l) = x ^^^ Nibble.sum l := rfl

namespace Bytes

variable {k : Nat}

/-! ## Sums of byte vectors -/

/-- Adds byte by byte. -/
instance : XorOp (Vector Byte k) where
  xor u v := u.zipWith (· ^^^ ·) v

/-- The vector of zero bytes. -/
def zero : Vector Byte k := Vector.replicate k 0

/-- The sum of a list of vectors. -/
def sum (l : List (Vector Byte k)) : Vector Byte k := l.foldr (· ^^^ ·) zero

@[simp] theorem getElem_xor (u v : Vector Byte k) (i : Nat) (hi : i < k) :
    (u ^^^ v)[i] = u[i] ^^^ v[i] :=
  Vector.getElem_zipWith hi

@[simp] theorem getElem_zero (i : Nat) (hi : i < k) : (zero : Vector Byte k)[i] = 0 :=
  Vector.getElem_replicate hi

@[simp] theorem sum_nil : sum ([] : List (Vector Byte k)) = zero := rfl

@[simp] theorem sum_cons (v : Vector Byte k) (l : List (Vector Byte k)) :
    sum (v :: l) = v ^^^ sum l := rfl

/-- A function on byte vectors that takes sums to sums. -/
structure Linear {j : Nat} (f : Vector Byte k → Vector Byte j) : Prop where
  /-- The empty sum. -/
  map_zero : f zero = zero
  /-- The sum of two. -/
  map_xor : ∀ u v, f (u ^^^ v) = f u ^^^ f v

theorem Linear.map_sum {j : Nat} {f : Vector Byte k → Vector Byte j} (hf : Linear f)
    (l : List (Vector Byte k)) : f (sum l) = sum (l.map f) := by
  induction l with
  | nil => exact hf.map_zero
  | cons v l ih => rw [sum_cons, hf.map_xor, ih, List.map_cons, sum_cons]

/-! ## Nibbles of byte vectors -/

theorem half_lt (n : Fin (2 * k)) : n.val / 2 < k := by omega

/-- Nibble `n`, the high half of a byte before its low half. -/
def nibble (v : Vector Byte k) (n : Fin (2 * k)) : Nibble :=
  if n.val % 2 = 0 then Byte.high v[n.val / 2] else Byte.low v[n.val / 2]

/-- The vector with the given nibbles. -/
def ofNibbles (f : Fin (2 * k) → Nibble) : Vector Byte k :=
  Vector.ofFn fun i => Byte.ofNibbles (f ⟨2 * i, by omega⟩) (f ⟨2 * i + 1, by omega⟩)

@[simp] theorem ofNibbles_nibble (v : Vector Byte k) : ofNibbles (nibble v) = v := by
  refine Vector.ext fun i hi => ?_
  have even : 2 * i / 2 = i := by omega
  have odd : (2 * i + 1) / 2 = i := by omega
  simp only [ofNibbles, nibble, Vector.getElem_ofFn, even, odd, Nat.mul_mod_right,
    Nat.mul_add_mod, if_true, if_neg (show ¬ 1 % 2 = 0 by decide), Byte.ofNibbles_high_low]

theorem nibble_zero (n : Fin (2 * k)) : nibble (zero : Vector Byte k) n = 0 := by
  simp only [nibble, getElem_zero]
  split <;> rfl

theorem nibble_xor (u v : Vector Byte k) (n : Fin (2 * k)) :
    nibble (u ^^^ v) n = nibble u n ^^^ nibble v n := by
  simp only [nibble, getElem_xor]
  split
  · exact Byte.high_xor _ _
  · exact Byte.low_xor _ _

/-- The nibble of a sum is the sum of the nibbles. -/
theorem nibble_sum (l : List (Vector Byte k)) (n : Fin (2 * k)) :
    nibble (sum l) n = Nibble.sum (l.map fun v => nibble v n) := by
  induction l with
  | nil => exact nibble_zero n
  | cons v l ih => rw [sum_cons, nibble_xor, ih, List.map_cons, Nibble.sum_cons]

/-! ## Bytes at their places -/

@[simp] theorem getElem_single (place : Nat) (b : Byte) (i : Nat) (hi : i < k) :
    (single place b : Vector Byte k)[i] = if i = place then b else 0 := by
  simp [single]

/-- Byte `p` of a vector, alone at its place. -/
def part (v : Vector Byte k) (p : Fin k) : Vector Byte k := single p.val (v.get p)

/-- Byte `i` of a sum over distinct places: the byte of the vector if `i` is among them,
and zero if it is not. -/
theorem getElem_sum_part (v : Vector Byte k) {places : List (Fin k)} (distinct : places.Nodup)
    (i : Nat) (hi : i < k) :
    (⟨i, hi⟩ ∈ places → (sum (places.map (part v)))[i] = v[i]) ∧
      (⟨i, hi⟩ ∉ places → (sum (places.map (part v)))[i] = 0) := by
  induction places with
  | nil =>
    refine ⟨fun h => absurd h List.not_mem_nil, fun _ => ?_⟩
    rw [List.map_nil, sum_nil, getElem_zero]
  | cons p rest ih =>
    obtain ⟨fresh, distinct⟩ := List.nodup_cons.1 distinct
    obtain ⟨present, absent⟩ := ih distinct
    rw [List.map_cons, sum_cons, getElem_xor, part, getElem_single]
    by_cases here : ⟨i, hi⟩ = p
    · subst here
      refine ⟨fun _ => ?_, fun h => absurd List.mem_cons_self h⟩
      rw [if_pos rfl, absent fresh]
      exact BitVec.xor_zero
    · have elsewhere : ¬ i = p.val := fun e => here (Fin.ext e)
      rw [if_neg elsewhere]
      constructor
      · intro h
        rw [present ((List.mem_cons.1 h).resolve_left here)]
        exact BitVec.zero_xor
      · intro h
        rw [absent fun found => h (List.mem_cons_of_mem p found)]
        exact BitVec.xor_zero

/-- A vector is the sum of its bytes, each alone at its place. -/
theorem sum_part (v : Vector Byte k) : sum ((List.finRange k).map (part v)) = v :=
  Vector.ext fun i hi =>
    (getElem_sum_part v (List.nodup_finRange k) i hi).1 (List.mem_finRange _)

/-! ## Byte vectors as words -/

/-- Bit `8k + b` of the number is bit `b` of byte `k`. -/
theorem testBit_littleEndian (bytes : List Byte) (i : Nat) :
    (littleEndian bytes).testBit i = (bytes.getD (i / 8) 0).getLsbD (i % 8) := by
  induction bytes generalizing i with
  | nil => simp [littleEndian]
  | cons b rest ih =>
    have shape : littleEndian (b :: rest) = 2 ^ 8 * littleEndian rest + b.toNat := by
      rw [littleEndian]
      omega
    rw [shape, Nat.testBit_two_pow_mul_add _ b.isLt]
    split
    · rename_i h
      have hd : i / 8 = 0 := by omega
      have hm : i % 8 = i := by omega
      rw [hd, hm]
      rfl
    · rename_i h
      obtain ⟨j, rfl⟩ : ∃ j, i = j + 8 := ⟨i - 8, by omega⟩
      have hd : (j + 8) / 8 = j / 8 + 1 := by omega
      have hm : (j + 8) % 8 = j % 8 := by omega
      rw [Nat.add_sub_cancel, ih, hd, hm, List.getD_cons_succ]

theorem getLsbD_toWord {n : Nat} (v : Vector Byte k) (i : Nat) (hi : i < n) (hk : i / 8 < k) :
    (toWord n v).getLsbD i = v[i / 8].getLsbD (i % 8) := by
  rw [toWord, BitVec.getLsbD_ofNat, testBit_littleEndian, decide_eq_true hi, Bool.true_and,
    List.getD_eq_getElem?_getD, List.getElem?_eq_getElem (by simpa using hk), Option.getD_some,
    Vector.getElem_toList]

/-- The word of a sum is the sum of the words. -/
theorem toWord_xor (u v : Vector Byte k) :
    toWord (8 * k) (u ^^^ v) = toWord (8 * k) u ^^^ toWord (8 * k) v := by
  refine BitVec.eq_of_getLsbD_eq fun i hi => ?_
  have hk : i / 8 < k := by omega
  rw [BitVec.getLsbD_xor, getLsbD_toWord _ i hi hk, getLsbD_toWord _ i hi hk,
    getLsbD_toWord _ i hi hk, getElem_xor, BitVec.getLsbD_xor]

theorem toWord_zero : toWord (8 * k) (zero : Vector Byte k) = 0 := by
  refine BitVec.eq_of_getLsbD_eq fun i hi => ?_
  rw [getLsbD_toWord _ i hi (by omega), getElem_zero]
  simp

/-- The bytes of a sum are the sums of the bytes. -/
theorem ofWord_xor {n : Nat} (a b : BitVec n) : ofWord k (a ^^^ b) = ofWord k a ^^^ ofWord k b := by
  refine Vector.ext fun i hi => ?_
  simp only [ofWord, getElem_xor, Vector.getElem_ofFn]
  exact BitVec.extractLsb'_xor

theorem ofWord_zero {n : Nat} : ofWord k (0 : BitVec n) = zero := by
  refine Vector.ext fun i hi => ?_
  simp [ofWord]

theorem toWord_ofWord (w : BitVec (8 * k)) : toWord (8 * k) (ofWord k w) = w := by
  refine BitVec.eq_of_getLsbD_eq fun i hi => ?_
  have hm : i % 8 < 8 := Nat.mod_lt i (by decide)
  rw [getLsbD_toWord _ i hi (by omega), ofWord, Vector.getElem_ofFn, BitVec.getLsbD_extractLsb',
    decide_eq_true hm, Bool.true_and, Nat.div_add_mod]

theorem ofWord_toWord (v : Vector Byte k) : ofWord k (toWord (8 * k) v) = v := by
  refine Vector.ext fun i hi => ?_
  refine BitVec.eq_of_getLsbD_eq fun b hb => ?_
  have hd : (8 * i + b) / 8 = i := by omega
  have hm : (8 * i + b) % 8 = b := by omega
  rw [ofWord, Vector.getElem_ofFn, BitVec.getLsbD_extractLsb', decide_eq_true hb, Bool.true_and,
    getLsbD_toWord v _ (by omega) (by omega)]
  simp only [hd, hm]

end Bytes

end WhiteBox
