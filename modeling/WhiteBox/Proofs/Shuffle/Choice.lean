import Mathlib.Data.Set.Card
import WhiteBox.Matrix
import WhiteBox.Shuffle.Draw

/-!
# How many words make a choice

A choice among `n` looks at the product of a word and `n`.  The word counts if the lower half of
the product is below `acceptedWidth n`, that is, if it does not exceed the largest number of this
kind, the rejection zone (`choiceOfWord?_eq_zone`).

So the words that make choice `j` are those whose product with `n` lies in an interval that
begins at `j * 2 ^ 32` and is `n * 2 ^ z` long, where `z` is the number of leading zeros of `n`.
Multiples of `n` lie `n` apart, whence exactly `2 ^ z` of them fall into the interval, wherever
it begins (`choiceOfWord?_eq_some_iff`).  The count is the same for all choices
(`ncard_choiceOfWord?`), and no multiple is lost at the top: the interval of the last choice ends
at or below `n * 2 ^ 32`.
-/

namespace WhiteBox

/-! ## The accepted width -/

/-- The number of zeros above the highest set bit of a number below `2 ^ 32`. -/
def leadingZeros (n : Nat) : Nat := (BitVec.ofNat 32 n).clz.toNat

/-- The largest lower half that counts in a choice among `n`, computed in 32 bits. -/
def rejectionZone (n : Nat) : BitVec 32 := (BitVec.ofNat 32 n <<< leadingZeros n) - 1

variable {n j : Nat}

theorem ofNat_ne_zero (pos : 0 < n) (lt : n < UInt32.size) : BitVec.ofNat 32 n ≠ 0#32 := by
  intro zero
  have value := congrArg BitVec.toNat zero
  rw [BitVec.toNat_ofNat, Nat.mod_eq_of_lt lt] at value
  exact absurd value (Nat.ne_of_gt pos)

theorem leadingZeros_eq (pos : 0 < n) (lt : n < UInt32.size) : leadingZeros n = 31 - n.log2 := by
  have value : (BitVec.ofNat 32 n).toNat = n := Nat.mod_eq_of_lt lt
  have nonzero := ofNat_ne_zero pos lt
  have low := BitVec.two_pow_sub_clz_le_toNat_of_ne_zero (by decide) nonzero
  have high : (BitVec.ofNat 32 n).toNat < 2 ^ (32 - leadingZeros n) :=
    BitVec.toNat_lt_two_pow_sub_clz
  have short : leadingZeros n < 32 := BitVec.clz_lt_iff_ne_zero.2 nonzero
  rw [value] at low high
  have log : n.log2 = 31 - leadingZeros n := by
    refine (Nat.log2_eq_iff (Nat.ne_of_gt pos)).2 ⟨low, ?_⟩
    have succ : 31 - leadingZeros n + 1 = 32 - leadingZeros n := by omega
    rwa [succ]
  omega

theorem acceptedWidth_eq (pos : 0 < n) (lt : n < UInt32.size) :
    acceptedWidth n = n * 2 ^ leadingZeros n := by
  rw [acceptedWidth, Nat.shiftLeft_eq, leadingZeros_eq pos lt]

theorem acceptedWidth_lt (pos : 0 < n) (lt : n < UInt32.size) : acceptedWidth n < UInt32.size := by
  have log : n.log2 < 32 := (Nat.log2_lt (Nat.ne_of_gt pos)).2 lt
  have bits : n.log2 + 1 + (31 - n.log2) = 32 := by omega
  calc acceptedWidth n = n * 2 ^ (31 - n.log2) := Nat.shiftLeft_eq _ _
    _ < 2 ^ (n.log2 + 1) * 2 ^ (31 - n.log2) :=
        Nat.mul_lt_mul_of_pos_right Nat.lt_log2_self (Nat.two_pow_pos _)
    _ = UInt32.size := by rw [← Nat.pow_add, bits]

/-- The zone is the last lower half that counts. -/
theorem toNat_rejectionZone (pos : 0 < n) (lt : n < UInt32.size) :
    (rejectionZone n).toNat = acceptedWidth n - 1 := by
  have width := acceptedWidth_eq pos lt
  have shifted : (BitVec.ofNat 32 n <<< leadingZeros n).toNat = acceptedWidth n := by
    rw [BitVec.toNat_shiftLeft, BitVec.toNat_ofNat, Nat.mod_eq_of_lt lt, Nat.shiftLeft_eq, ← width]
    exact Nat.mod_eq_of_lt (acceptedWidth_lt pos lt)
  have nonzero : BitVec.ofNat 32 n <<< leadingZeros n ≠ 0#32 := by
    intro zero
    rw [zero, width] at shifted
    exact absurd shifted.symm (Nat.ne_of_gt (Nat.mul_pos pos (Nat.two_pow_pos _)))
  rw [rejectionZone, toNat_sub_one nonzero, shifted]

/-- A choice in terms of the zone. -/
theorem choiceOfWord?_eq_zone (pos : 0 < n) (lt : n < UInt32.size) (v : UInt32) :
    choiceOfWord? n v =
      if v.toNat * n % UInt32.size ≤ (rejectionZone n).toNat then
        some (v.toNat * n / UInt32.size)
      else none := by
  have width : 0 < acceptedWidth n := by
    rw [acceptedWidth_eq pos lt]
    exact Nat.mul_pos pos (Nat.two_pow_pos _)
  have accepted : v.toNat * n % UInt32.size < acceptedWidth n ↔
      v.toNat * n % UInt32.size ≤ (rejectionZone n).toNat := by
    rw [toNat_rejectionZone pos lt]
    omega
  rw [choiceOfWord?]
  simp only [accepted]

/-! ## The words of a choice -/

/-- The first word that makes choice `j` among `n`. -/
def firstWord (n j : Nat) : Nat := (j * UInt32.size + (n - 1)) / n

/-- Multiples of `n` that do not fall below a bound. -/
theorem le_mul_iff (pos : 0 < n) (bound v : Nat) :
    bound ≤ v * n ↔ (bound + (n - 1)) / n ≤ v := by
  rw [Nat.div_le_iff_le_mul_add_pred pos, Nat.mul_comm n v]
  omega

/-- The first number whose product with `n` is past those of choice `j`. -/
theorem le_mul_iff_past (pos : 0 < n) (lt : n < UInt32.size) (v : Nat) :
    j * UInt32.size + acceptedWidth n ≤ v * n ↔ firstWord n j + 2 ^ leadingZeros n ≤ v := by
  rw [le_mul_iff pos, acceptedWidth_eq pos lt, firstWord, Nat.add_right_comm,
    Nat.add_mul_div_left _ _ pos]

/-- The words that make a choice follow each other. -/
theorem choiceOfWord?_eq_some_iff (pos : 0 < n) (lt : n < UInt32.size) (v : UInt32) :
    choiceOfWord? n v = some j ↔
      firstWord n j ≤ v.toNat ∧ v.toNat < firstWord n j + 2 ^ leadingZeros n := by
  have width := acceptedWidth_lt pos lt
  have interval : choiceOfWord? n v = some j ↔
      j * UInt32.size ≤ v.toNat * n ∧ v.toNat * n < j * UInt32.size + acceptedWidth n := by
    rw [choiceOfWord?]
    simp only [Option.ite_none_right_eq_some, Option.some.injEq]
    generalize v.toNat * n = product
    constructor
    · rintro ⟨accepted, rfl⟩
      have parts := Nat.div_add_mod' product UInt32.size
      omega
    · rintro ⟨low, high⟩
      have quotient : product / UInt32.size = j := by
        refine Nat.div_eq_of_lt_le low ?_
        rw [Nat.succ_mul]
        omega
      have parts := Nat.div_add_mod' product UInt32.size
      rw [quotient] at parts
      exact ⟨by omega, quotient⟩
  rw [interval, le_mul_iff pos, ← Nat.not_le, le_mul_iff_past pos lt, Nat.not_le]
  rfl

/-- All words of the last choice, and so of any, are below `2 ^ 32`. -/
theorem firstWord_add_le (pos : 0 < n) (lt : n < UInt32.size) (choice : j < n) :
    firstWord n j + 2 ^ leadingZeros n ≤ UInt32.size := by
  have width := acceptedWidth_lt pos lt
  refine (le_mul_iff_past pos lt _).1 ?_
  calc j * UInt32.size + acceptedWidth n ≤ (j + 1) * UInt32.size := by rw [Nat.succ_mul]; omega
    _ ≤ n * UInt32.size := Nat.mul_le_mul_right _ choice
    _ = UInt32.size * n := Nat.mul_comm _ _

/-- There are as many words in a range as numbers. -/
theorem ncard_words {first count : Nat} (fits : first + count ≤ UInt32.size) :
    {v : UInt32 | first ≤ v.toNat ∧ v.toNat < first + count}.ncard = count := by
  have value {i : Nat} (h : i < count) : (UInt32.ofNat (first + i)).toNat = first + i :=
    UInt32.toNat_ofNat_of_lt' (by omega)
  let number : {v : UInt32 // first ≤ v.toNat ∧ v.toNat < first + count} ≃ Fin count :=
    { toFun := fun v => ⟨v.1.toNat - first, by have := v.2; omega⟩
      invFun := fun i => ⟨UInt32.ofNat (first + i), by have := i.isLt; rw [value i.isLt]; omega⟩
      left_inv := fun v => by
        refine Subtype.ext (UInt32.toNat_inj.1 ?_)
        have := v.2
        rw [value (by omega)]
        exact Nat.add_sub_cancel' this.1
      right_inv := fun i => by
        refine Fin.ext ?_
        show (UInt32.ofNat (first + i)).toNat - first = i
        rw [value i.isLt, Nat.add_sub_cancel_left] }
  rw [← Nat.card_coe_set_eq]
  exact (Nat.card_congr number).trans (Nat.card_fin count)

/-- Every choice is made by the same number of words. -/
theorem ncard_choiceOfWord? (pos : 0 < n) (lt : n < UInt32.size) (choice : j < n) :
    {v | choiceOfWord? n v = some j}.ncard = 2 ^ leadingZeros n := by
  have words : {v | choiceOfWord? n v = some j} =
      {v | firstWord n j ≤ v.toNat ∧ v.toNat < firstWord n j + 2 ^ leadingZeros n} :=
    Set.ext fun v => choiceOfWord?_eq_some_iff pos lt v
  rw [words, ncard_words (firstWord_add_le pos lt choice)]

end WhiteBox
