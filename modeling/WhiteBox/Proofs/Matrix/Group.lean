import WhiteBox.Proofs.Matrix.Invertible
import WhiteBox.Proofs.Matrix.LinearMap

/-!
# Inverses of products

Elimination goes other ways on a product than on its factors, but what it finds is the inverse,
and there is only one.  So the inverse of a product is the product of the inverses in opposite
order (`Matrix.mul_invert?`), also for a list of factors (`Matrix.product_invert?`).

Conversely a product with an inverse has factors with inverses.  The product undone is the right
factor undone from the left and the left factor undone from the right, and either side is enough
(`Matrix.isInvertible_mul_iff`).
-/

namespace WhiteBox.Matrix

variable {n : Nat} {a b a' b' : Matrix n}

/-! ## Two factors -/

theorem isInvertible_iff : a.isInvertible = true ↔ ∃ inverse, a.invert? = some inverse :=
  Option.isSome_iff_exists

theorem mul_invert? (ha : a.invert? = some a') (hb : b.invert? = some b') :
    (a.mul b).invert? = some (b'.mul a') := by
  refine invert?_eq_some_iff.2 ?_
  calc (a.mul b).mul (b'.mul a')
      = a.mul ((b.mul b').mul a') := by rw [mul_assoc, mul_assoc]
    _ = a.mul a' := by rw [(invert?_mul hb).1, identity_mul]
    _ = identity := (invert?_mul ha).1

/-- The inverse of the inverse is the matrix. -/
theorem invert?_symm (h : a.invert? = some a') : a'.invert? = some a :=
  invert?_eq_some_iff.2 (invert?_mul h).2

theorem isInvertible_mul_iff :
    (a.mul b).isInvertible = true ↔ a.isInvertible = true ∧ b.isInvertible = true := by
  simp only [isInvertible_iff]
  constructor
  · rintro ⟨inverse, found⟩
    obtain ⟨right, left⟩ := invert?_mul found
    rw [mul_assoc] at right
    rw [← mul_assoc] at left
    exact ⟨⟨_, invert?_eq_some_iff.2 right⟩, ⟨_, invert?_eq_some_iff_left.2 left⟩⟩
  · rintro ⟨⟨_, ha⟩, ⟨_, hb⟩⟩
    exact ⟨_, mul_invert? ha hb⟩

/-! ## Lists of factors -/

/-- The product of a list, the first factor leftmost. -/
def product (l : List (Matrix n)) : Matrix n := l.foldl mul identity

theorem foldl_mul (l : List (Matrix n)) (start : Matrix n) :
    l.foldl mul start = start.mul (product l) := by
  induction l generalizing start with
  | nil => exact (mul_identity start).symm
  | cons m l ih =>
    rw [product, List.foldl_cons, List.foldl_cons, ih, ih (identity.mul m), identity_mul, mul_assoc]

theorem product_cons (m : Matrix n) (l : List (Matrix n)) :
    product (m :: l) = m.mul (product l) := by
  rw [product, List.foldl_cons, identity_mul, foldl_mul]

theorem product_concat (l : List (Matrix n)) (m : Matrix n) :
    product (l ++ [m]) = (product l).mul m := by
  rw [product, List.foldl_append]
  rfl

/-- The inverse of each matrix of a list. -/
def Inverses (l inverses : List (Matrix n)) : Prop :=
  List.Forall₂ (fun m inverse => m.invert? = some inverse) l inverses

theorem exists_inverses {l : List (Matrix n)} (h : ∀ m ∈ l, m.isInvertible = true) :
    ∃ inverses, Inverses l inverses := by
  induction l with
  | nil => exact ⟨[], .nil⟩
  | cons m l ih =>
    obtain ⟨inverse, found⟩ := isInvertible_iff.1 (h m List.mem_cons_self)
    obtain ⟨inverses, each⟩ := ih fun k hk => h k (List.mem_cons_of_mem m hk)
    exact ⟨inverse :: inverses, .cons found each⟩

theorem product_invert? {l inverses : List (Matrix n)} (h : Inverses l inverses) :
    (product l).invert? = some (product inverses.reverse) := by
  induction h with
  | nil => exact invert?_eq_some_iff.2 (identity_mul identity)
  | cons found _ ih =>
    rw [product_cons, List.reverse_cons, product_concat]
    exact mul_invert? found ih

/-- Inversion respects products.  A product is invertible if and only if both factors are, and
then its inverse is the product of theirs in opposite order; likewise for a list of factors.
The inverse of an inverse is the matrix. -/
theorem inverts_products (a b : Matrix n) (l : List (Matrix n)) :
    ((a.mul b).isInvertible = true ↔ a.isInvertible = true ∧ b.isInvertible = true) ∧
      (∀ a' b', a.invert? = some a' → b.invert? = some b' →
        (a.mul b).invert? = some (b'.mul a')) ∧
      (∀ a', a.invert? = some a' → a'.invert? = some a) ∧
      ((∀ m ∈ l, m.isInvertible = true) →
        ∃ inverses, Inverses l inverses ∧
          (product l).invert? = some (product inverses.reverse)) := by
  refine ⟨isInvertible_mul_iff, fun _ _ => mul_invert?, fun _ => invert?_symm, fun each => ?_⟩
  obtain ⟨inverses, h⟩ := exists_inverses each
  exact ⟨inverses, h, product_invert? h⟩

/-- A matrix that needs a row swap, and one that adds the first row to the last. -/
theorem inverts_products_swap :
    (⟨#v[2, 1, 4, 8, 16, 32, 64, 129]⟩ : Matrix 8).invert? =
        some ⟨#v[2, 1, 4, 8, 16, 32, 64, 130]⟩ ∧
      (⟨#v[1, 2, 4, 8, 16, 32, 64, 129]⟩ : Matrix 8).invert? =
        some ⟨#v[1, 2, 4, 8, 16, 32, 64, 129]⟩ ∧
      (mul ⟨#v[2, 1, 4, 8, 16, 32, 64, 129]⟩
          ⟨#v[1, 2, 4, 8, 16, 32, 64, 129]⟩ : Matrix 8).invert? =
        some (mul ⟨#v[1, 2, 4, 8, 16, 32, 64, 129]⟩ ⟨#v[2, 1, 4, 8, 16, 32, 64, 130]⟩) := by
  have swap : (⟨#v[2, 1, 4, 8, 16, 32, 64, 129]⟩ : Matrix 8).invert? =
      some ⟨#v[2, 1, 4, 8, 16, 32, 64, 130]⟩ := by decide
  have shear : (⟨#v[1, 2, 4, 8, 16, 32, 64, 129]⟩ : Matrix 8).invert? =
      some ⟨#v[1, 2, 4, 8, 16, 32, 64, 129]⟩ := by decide
  obtain ⟨-, inverse, -, -⟩ := inverts_products _ _ []
  exact ⟨swap, shear, inverse _ _ swap shear⟩

end WhiteBox.Matrix
