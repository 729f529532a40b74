import Mathlib.Algebra.Group.Nat.Defs
import Mathlib.Data.List.FinRange
import WhiteBox.Matrix

/-!
# The set bits of a word

Subtracting one from a word changes its lowest set bit and the bits below it, so
`clearLowest` takes away that bit and nothing else (`getLsbD_clearLowest`).  Hence `setBits`
meets every set bit once, lowest first (`setBits_eq_filter`), and has then cleared the word
(`clearLowest_iterate_setBits`).

`Bits.sum` adds up a list of bits.  A parity is the sum of the bits of a word
(`parity_eq_sum`), so it tells whether an odd number of them is set (`parity_eq_odd`).  And bit
`j` of the rows that a word selects is the sum, over all rows, of the product of the selecting
bit and bit `j` of the row (`getLsbD_combination`).
-/

namespace WhiteBox

variable {n : Nat}

/-! ## Clearing the lowest set bit -/

/-- A word is its lowest set bit and a multiple of the next power of two. -/
theorem toNat_eq_of_ctz {v : BitVec n} (h : v ≠ 0#n) :
    v.toNat = 2 ^ (v.ctz.toNat + 1) * (v.toNat / 2 ^ (v.ctz.toNat + 1)) + 2 ^ v.ctz.toNat := by
  have rest : v.toNat % 2 ^ (v.ctz.toNat + 1) = 2 ^ v.ctz.toNat := by
    refine Nat.eq_of_testBit_eq fun i => ?_
    rw [Nat.testBit_mod_two_pow, Nat.testBit_two_pow]
    rcases Nat.lt_trichotomy i v.ctz.toNat with below | rfl | above
    · have unset : v.toNat.testBit i = false := BitVec.getLsbD_false_of_lt_ctz below
      simp [unset, Nat.ne_of_gt below]
    · have set : v.toNat.testBit v.ctz.toNat = true := BitVec.getLsbD_true_ctz_of_ne_zero h
      simp [set]
    · simp [Nat.ne_of_lt above, Nat.not_lt.2 (Nat.succ_le_of_lt above)]
  rw [← rest, Nat.div_add_mod]

/-- The lowest set bit is cleared and every other bit stays. -/
theorem getLsbD_clearLowest {v : BitVec n} (h : v ≠ 0#n) (j : Nat) :
    (clearLowest v).getLsbD j = (v.getLsbD j && decide (j ≠ v.ctz.toNat)) := by
  have bit (w : BitVec n) : w.getLsbD j = w.toNat.testBit j := rfl
  rw [clearLowest, BitVec.getLsbD_and, bit, bit, toNat_sub_one h, toNat_eq_of_ctz h]
  generalize v.ctz.toNat = t, v.toNat / 2 ^ (v.ctz.toNat + 1) = q
  have lower : 2 ^ t < 2 ^ (t + 1) := Nat.pow_lt_pow_right (by decide) (Nat.lt_succ_self t)
  have pred : 2 ^ (t + 1) * q + 2 ^ t - 1 = 2 ^ (t + 1) * q + (2 ^ t - 1) :=
    Nat.add_sub_assoc Nat.one_le_two_pow _
  rw [pred, Nat.testBit_two_pow_mul_add _ lower, Nat.testBit_two_pow_mul_add _ (by omega)]
  split
  · rw [Nat.testBit_two_pow, Nat.testBit_two_pow_sub_one]
    by_cases at_bit : t = j
    · simp [at_bit]
    · simp [at_bit]
  · have above : j ≠ t := by omega
    simp [above]

/-- A word is its lowest set bit added to the others. -/
theorem clearLowest_xor_twoPow {v : BitVec n} (h : v ≠ 0#n) :
    clearLowest v ^^^ BitVec.twoPow n v.ctz.toNat = v := by
  refine BitVec.eq_of_getLsbD_eq fun j hj => ?_
  have lt : v.ctz.toNat < n := BitVec.lt_of_getLsbD (BitVec.getLsbD_true_ctz_of_ne_zero h)
  rw [BitVec.getLsbD_xor, getLsbD_clearLowest h, BitVec.getLsbD_twoPow, decide_eq_true lt,
    Bool.true_and]
  by_cases at_bit : j = v.ctz.toNat
  · subst at_bit
    simp [BitVec.getLsbD_true_ctz_of_ne_zero h]
  · simp [at_bit, Ne.symm at_bit]

/-! ## All set bits -/

/-- In an ascending list, the least member that passes a test stands first among those that
pass it. -/
theorem filter_eq_cons_of_least {p rest : Fin n → Bool} {i : Fin n} (set : p i = true)
    (below : ∀ j < i, p j = false) (cleared : ∀ j, rest j = (p j && decide (j ≠ i)))
    {l : List (Fin n)} (ascending : l.Pairwise (· < ·)) (mem : i ∈ l) :
    l.filter p = i :: l.filter rest := by
  have atI : rest i = false := by simp [cleared]
  induction ascending with
  | nil => cases mem
  | @cons a l after ascending ih =>
    rcases List.mem_cons.1 mem with rfl | later
    · rw [List.filter_cons_of_pos set, List.filter_cons_of_neg (by simp [atI])]
      refine congrArg _ (List.filter_congr fun j hj => ?_)
      simp [cleared, Fin.ne_of_gt (after j hj)]
    · have unset := below a (after i later)
      have unset' : rest a = false := by simp [cleared, unset]
      rw [List.filter_cons_of_neg (by simp [unset]), List.filter_cons_of_neg (by simp [unset']),
        ih later]

theorem setBits_eq_filter (v : BitVec n) :
    setBits v = (List.finRange n).filter fun i : Fin n => v.getLsbD i := by
  fun_induction setBits v with
  | case1 => simp
  | case2 v nonzero ih =>
    rw [ih]
    refine (filter_eq_cons_of_least ?_ (fun j below => ?_) (fun j => ?_)
      (List.pairwise_lt_finRange n) (List.mem_finRange _)).symm
    · exact BitVec.getLsbD_true_ctz_of_ne_zero nonzero
    · exact BitVec.getLsbD_false_of_lt_ctz below
    · rw [getLsbD_clearLowest nonzero]
      simp only [ne_eq, Fin.ext_iff]

/-- Clearing as many bits as are set leaves none. -/
theorem clearLowest_iterate_setBits (v : BitVec n) :
    clearLowest^[(setBits v).length] v = 0#n := by
  fun_induction setBits v with
  | case1 => rfl
  | case2 v nonzero ih => rw [List.length_cons, Function.iterate_succ_apply, ih]

/-! ## Sums of bits -/

/-- The sum of a list of bits. -/
def Bits.sum (l : List Bool) : Bool := l.foldr Bool.xor false

namespace Bits

@[simp] theorem sum_nil : sum [] = false := rfl

@[simp] theorem sum_cons (b : Bool) (l : List Bool) : sum (b :: l) = (b ^^ sum l) := rfl

theorem sum_append (l r : List Bool) : sum (l ++ r) = (sum l ^^ sum r) := by
  induction l with
  | nil => rw [List.nil_append, sum_nil, Bool.false_xor]
  | cons b l ih => rw [List.cons_append, sum_cons, sum_cons, ih, Bool.xor_assoc]

/-- Members that fail a test are as good as zero. -/
theorem sum_map_filter {α : Type} (p f : α → Bool) (l : List α) :
    sum ((l.filter p).map f) = sum (l.map fun a => p a && f a) := by
  induction l with
  | nil => rfl
  | cons a l ih =>
    cases h : p a with
    | false => simp [h, ih]
    | true => simp [h, ih]

/-- A sum says whether an odd number of bits is set. -/
theorem sum_map_eq_odd {α : Type} (p : α → Bool) (l : List α) :
    sum (l.map p) = decide ((l.filter p).length % 2 = 1) := by
  induction l with
  | nil => rfl
  | cons a l ih =>
    rw [List.map_cons, sum_cons, ih]
    cases h : p a with
    | false => rw [List.filter_cons_of_neg (by simp [h]), Bool.false_xor]
    | true =>
      rw [List.filter_cons_of_pos h, List.length_cons, Bool.true_xor, ← decide_not]
      exact decide_eq_decide.2 (by omega)

end Bits

theorem parityBelow_eq_sum (v : BitVec n) (k : Nat) :
    parityBelow v k = Bits.sum ((List.range k).map v.getLsbD) := by
  induction k with
  | zero => rfl
  | succ k ih => simp [parityBelow, ih, List.range_succ, Bits.sum_append]

/-- The parity of a word is the sum of its bits. -/
theorem parity_eq_sum (v : BitVec n) :
    parity v = Bits.sum ((List.finRange n).map fun i : Fin n => v.getLsbD i) := by
  rw [parity, parityBelow_eq_sum, ← List.map_coe_finRange_eq_range, List.map_map]
  rfl

/-- The parity of a word says whether an odd number of its bits is set. -/
theorem parity_eq_odd (v : BitVec n) : parity v = decide ((setBits v).length % 2 = 1) := by
  rw [parity_eq_sum, Bits.sum_map_eq_odd, setBits_eq_filter]

theorem getLsbD_foldl_xor (rows : Vector (BitVec n) n) (j : Nat) (l : List (Fin n))
    (start : BitVec n) :
    (l.foldl (fun sum i => sum ^^^ rows.get i) start).getLsbD j =
      (start.getLsbD j ^^ Bits.sum (l.map fun i => (rows.get i).getLsbD j)) := by
  induction l generalizing start with
  | nil => simp
  | cons i l ih => simp [ih]

/-- Bit `j` of the selected rows is the sum of bits `j` of these rows. -/
theorem getLsbD_combination (selected : BitVec n) (rows : Vector (BitVec n) n) (j : Nat) :
    (combination selected rows).getLsbD j =
      Bits.sum ((List.finRange n).map fun k : Fin n =>
        selected.getLsbD k && (rows.get k).getLsbD j) := by
  rw [combination, getLsbD_foldl_xor, setBits_eq_filter, Bits.sum_map_filter]
  simp

end WhiteBox
