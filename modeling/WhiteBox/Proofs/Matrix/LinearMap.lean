import WhiteBox.Proofs.Matrix.Product

/-!
# Matrices are the linear maps

What a function on words that respects sums makes of the words with one set bit are the
columns of a matrix (`Matrix.ofMap`).  The matrix acts as the function does
(`Matrix.apply_ofMap`), and no other matrix does (`Matrix.existsUnique_apply_eq`).

Products are composition, so they inherit associativity and the unit from it
(`Matrix.mul_assoc`, `Matrix.identity_mul`, `Matrix.mul_identity`).

Both come together in `Matrix.composes_linear_maps`, down to the words that hold the rows: how
the set bits of a row are visited and counted.
-/

namespace WhiteBox.Matrix

variable {n : Nat}

/-! ## The matrix of a linear map -/

/-- The matrix whose column `j` is what the function makes of the word with bit `j` alone. -/
def ofMap (f : BitVec n → BitVec n) : Matrix n :=
  ofEntries fun i j => (f (BitVec.twoPow n j)).getLsbD i

theorem apply_ofMap {f : BitVec n → BitVec n} (hf : Word.Linear f) (v : BitVec n) :
    (ofMap f).apply v = f v := by
  refine Word.ext_linear (ofMap f).linear_apply hf (fun j => word_ext fun i => ?_) v
  rw [getLsbD_apply_twoPow, ofMap, entry_ofEntries]

theorem existsUnique_apply_eq {f : BitVec n → BitVec n} (hf : Word.Linear f) :
    ∃! m : Matrix n, m.apply = f := by
  refine ⟨ofMap f, funext (apply_ofMap hf), fun m acts => ?_⟩
  refine ext_apply fun v => ?_
  rw [apply_ofMap hf, acts]

/-! ## Products are composition -/

theorem mul_assoc (a b c : Matrix n) : (a.mul b).mul c = a.mul (b.mul c) :=
  ext_apply fun v => by rw [apply_mul, apply_mul, apply_mul, apply_mul]

@[simp] theorem identity_mul (a : Matrix n) : identity.mul a = a :=
  ext_apply fun v => by rw [apply_mul, apply_identity]

@[simp] theorem mul_identity (a : Matrix n) : a.mul identity = a :=
  ext_apply fun v => by rw [apply_mul, apply_identity]

/-! ## The rows behind them -/

/-- A bit of the result says whether an odd number of bits is set in the row under the word. -/
theorem getLsbD_apply_eq_odd (a : Matrix n) (v : BitVec n) (i : Fin n) :
    (a.apply v).getLsbD i = decide ((setBits (a.row i &&& v)).length % 2 = 1) := by
  rw [getLsbD_apply, parity_eq_odd]

/-- Matrices act as the linear maps on words, each as exactly one of them, and products compose
the maps.  The set bits of a row are visited once each, lowest first, until the row is zero, and
the sum of the rows that they name is the row of the product. -/
theorem composes_linear_maps (n : Nat) :
    (∀ (a : Matrix n) (v : BitVec n) (i : Fin n),
        (a.apply v).getLsbD i = decide ((setBits (a.row i &&& v)).length % 2 = 1)) ∧
      (∀ (a : Matrix n) (u v : BitVec n), a.apply (u ^^^ v) = a.apply u ^^^ a.apply v) ∧
      (∀ (a b : Matrix n) (i : Fin n),
        setBits (a.row i) = (List.finRange n).filter (fun k => a.entry i k) ∧
          clearLowest^[(setBits (a.row i)).length] (a.row i) = 0#n ∧
          (a.mul b).row i = (setBits (a.row i)).foldl (fun sum k => sum ^^^ b.row k) 0#n) ∧
      (∀ (a b : Matrix n) (i j : Fin n),
        (a.mul b).entry i j =
          Bits.sum ((List.finRange n).map fun k => a.entry i k && b.entry k j)) ∧
      (∀ (a b : Matrix n) (v : BitVec n), (a.mul b).apply v = a.apply (b.apply v)) ∧
      (∀ v : BitVec n, identity.apply v = v) ∧
      (∀ a b : Matrix n, a = b ↔ ∀ v, a.apply v = b.apply v) ∧
      (∀ f : BitVec n → BitVec n, (∀ u v, f (u ^^^ v) = f u ^^^ f v) →
        ∃! m : Matrix n, m.apply = f) ∧
      (∀ a b c : Matrix n, (a.mul b).mul c = a.mul (b.mul c)) ∧
      ∀ a : Matrix n, identity.mul a = a ∧ a.mul identity = a := by
  refine ⟨getLsbD_apply_eq_odd, apply_xor, fun a b i => ⟨?_, ?_, ?_⟩, entry_mul,
    apply_mul, apply_identity, fun a b => ⟨?_, ext_apply⟩, fun f hf => existsUnique_apply_eq hf,
    mul_assoc, fun a => ⟨identity_mul a, mul_identity a⟩⟩
  · exact setBits_eq_filter _
  · exact clearLowest_iterate_setBits _
  · exact row_mul a b i
  · rintro rfl v
    rfl

/-- The sum of a word of 128 bits and the word shifted by one place is the action of exactly one
matrix. -/
theorem composes_linear_maps_shift :
    (∀ u v : BitVec 128, (u ^^^ v) ^^^ (u ^^^ v) <<< 1 = (u ^^^ u <<< 1) ^^^ (v ^^^ v <<< 1)) ∧
      ∃! m : Matrix 128, m.apply = fun v : BitVec 128 => v ^^^ v <<< 1 := by
  have linear (u v : BitVec 128) :
      (u ^^^ v) ^^^ (u ^^^ v) <<< 1 = (u ^^^ u <<< 1) ^^^ (v ^^^ v <<< 1) := by
    rw [BitVec.shiftLeft_xor_distrib]
    ac_rfl
  obtain ⟨-, -, -, -, -, -, -, represented, -, -⟩ := composes_linear_maps 128
  exact ⟨linear, represented (fun v => v ^^^ v <<< 1) linear⟩

end WhiteBox.Matrix
