import WhiteBox.Proofs.Matrix.Elimination
import WhiteBox.Proofs.Matrix.SetBits

/-!
# Products of matrices

Row `i` of a product is the sum of the rows that row `i` of the left factor selects
(`Matrix.row_mul`), so entry `(i, j)` is the sum of the products of entries, as usual
(`Matrix.entry_mul`).

What respects sums is determined by the words with one set bit, since every word is built up
from these (`Word.ext_linear`).  There the action of a matrix shows its entries
(`Matrix.getLsbD_apply_twoPow`).  Hence a product acts as one factor after the other
(`Matrix.apply_mul`), and a matrix is determined by its action (`Matrix.ext_apply`).  So
whatever holds of the actions of products holds of products.  In particular a matrix and the
inverse that elimination finds are inverse to each other as matrices (`Matrix.invert?_mul`).
-/

namespace WhiteBox

variable {n : Nat}

/-! ## Functions that respect sums -/

namespace Word

/-- A function on words that takes sums to sums. -/
def Linear (f : BitVec n → BitVec n) : Prop := ∀ u v, f (u ^^^ v) = f u ^^^ f v

variable {f g : BitVec n → BitVec n}

theorem Linear.map_zero (hf : Linear f) : f 0#n = 0#n := by
  have twice := hf 0#n 0#n
  rwa [BitVec.xor_self, BitVec.xor_self] at twice

theorem Linear.comp (hf : Linear f) (hg : Linear g) : Linear fun v => f (g v) := by
  intro u v
  show f (g (u ^^^ v)) = f (g u) ^^^ f (g v)
  rw [hg, hf]

/-- Two such functions that agree on the words with one set bit are equal. -/
theorem ext_linear (hf : Linear f) (hg : Linear g)
    (same : ∀ j : Fin n, f (BitVec.twoPow n j) = g (BitVec.twoPow n j)) (v : BitVec n) :
    f v = g v := by
  induction v using setBits.induct with
  | case1 => rw [hf.map_zero, hg.map_zero]
  | case2 v nonzero ih =>
    have lowest := same ⟨_, BitVec.lt_of_getLsbD (BitVec.getLsbD_true_ctz_of_ne_zero nonzero)⟩
    rw [← clearLowest_xor_twoPow nonzero, hf, hg, ih, lowest]

end Word

namespace Matrix

theorem linear_apply (m : Matrix n) : Word.Linear m.apply := m.apply_xor

theorem getLsbD_apply_twoPow (m : Matrix n) (i j : Fin n) :
    (m.apply (BitVec.twoPow n j)).getLsbD i = m.entry i j := by
  rw [getLsbD_apply, BitVec.and_comm, parity, parityBelow_twoPow, decide_eq_true j.isLt,
    Bool.true_and]
  rfl

/-- A matrix is determined by what it does to words. -/
theorem ext_apply {a b : Matrix n} (h : ∀ v, a.apply v = b.apply v) : a = b := by
  refine ext_entry fun i j => ?_
  rw [← getLsbD_apply_twoPow, h, getLsbD_apply_twoPow]

/-! ## Products -/

/-- A row of a product is the sum of the rows that the row of the left factor selects. -/
theorem row_mul (a b : Matrix n) (i : Fin n) : (a.mul b).row i = combination (a.row i) b.rows :=
  Vector.getElem_map _ i.isLt

/-- An entry of a product is the sum of the products of entries. -/
theorem entry_mul (a b : Matrix n) (i j : Fin n) :
    (a.mul b).entry i j =
      Bits.sum ((List.finRange n).map fun k => a.entry i k && b.entry k j) := by
  rw [entry, row_mul, getLsbD_combination]
  rfl

/-- The right factor acts first. -/
theorem apply_mul (a b : Matrix n) (v : BitVec n) : (a.mul b).apply v = a.apply (b.apply v) := by
  refine Word.ext_linear (a.mul b).linear_apply (a.linear_apply.comp b.linear_apply)
    (fun j => word_ext fun i => ?_) v
  rw [getLsbD_apply_twoPow, entry_mul, getLsbD_apply, parity_eq_sum]
  simp only [BitVec.getLsbD_and, getLsbD_apply_twoPow]
  rfl

/-- What elimination finds is the inverse on either side. -/
theorem invert?_mul {m inverse : Matrix n} (h : m.invert? = some inverse) :
    m.mul inverse = identity ∧ inverse.mul m = identity := by
  obtain ⟨left, right⟩ := invert?_apply h
  constructor
  · refine ext_apply fun v => ?_
    rw [apply_mul, right, apply_identity]
  · refine ext_apply fun v => ?_
    rw [apply_mul, left, apply_identity]

end Matrix

end WhiteBox
