import WhiteBox.Proofs.Matrix.Product

/-!
# Elimination decides invertibility

`Matrix.invert?` finds no inverse only if it comes to a column `c` without a pivot.  Then the
left matrix has bits in column `c` above the diagonal only, and there its columns are those of
the identity.  So it sends the word of column `c` to itself, and the sum of that word and bit
`c` to zero (`Elimination.Reduces.exists_kernel`).  What the left matrix sends to zero, the
matrix itself does.

Hence there is an inverse or a word other than zero that the matrix sends to zero, and never
both (`Matrix.exists_invert?_iff`).  A word of the second kind excludes an inverse on either
side, because an inverse on one side is already the one that elimination finds
(`Matrix.invert?_eq_some_iff`, `Matrix.invert?_eq_some_iff_left`).
-/

namespace WhiteBox.Matrix

variable {n : Nat}

/-! ## A column without a pivot -/

theorem entry_of_pivot?_eq_none {m : Matrix n} {c : Fin n} (h : m.pivot? c = none) {i : Fin n}
    (below : c ≤ i) : m.entry i c = false := by
  have rejected := List.find?_eq_none.1 h i (List.mem_finRange i)
  simpa [below] using rejected

/-- Where its columns are those of the identity, a matrix acts as the identity. -/
theorem apply_eq_self_of_cleared {m : Matrix n} {c : Nat}
    (cleared : ∀ i j : Fin n, j.val < c → m.entry i j = decide (i = j)) {w : BitVec n}
    (low : ∀ j : Fin n, c ≤ j.val → w.getLsbD j = false) : m.apply w = w := by
  refine word_ext fun i => ?_
  have selected : m.row i &&& w = BitVec.twoPow n i &&& w := by
    refine word_ext fun j => ?_
    rw [BitVec.getLsbD_and, BitVec.getLsbD_and]
    obtain lt | ge := Nat.lt_or_ge j.val c
    · have bit : (m.row i).getLsbD j = decide (i = j) := cleared i j lt
      rw [bit, BitVec.getLsbD_twoPow, decide_eq_true i.isLt, Bool.true_and]
      simp only [Fin.ext_iff]
    · rw [low j ge, Bool.and_false, Bool.and_false]
  rw [getLsbD_apply, selected, parity, parityBelow_twoPow, decide_eq_true i.isLt, Bool.true_and]

/-- A column without a pivot gives a word that the matrix sends to zero. -/
theorem Elimination.Reduces.exists_kernel {m : Matrix n} {c : Fin n} {s : Elimination n}
    (h : Reduces m c s) (stuck : s.left.pivot? c = none) : ∃ v, v ≠ 0#n ∧ m.apply v = 0#n := by
  let column := s.left.apply (BitVec.twoPow n c)
  have low (j : Fin n) (below : c ≤ j) : column.getLsbD j = false := by
    rw [getLsbD_apply_twoPow]
    exact entry_of_pivot?_eq_none stuck below
  refine ⟨BitVec.twoPow n c ^^^ column, fun zero => ?_, h.faithful _ ?_⟩
  · have bit : (BitVec.twoPow n c ^^^ column).getLsbD c = false := by
      rw [zero, BitVec.getLsbD_zero]
    rw [BitVec.getLsbD_xor, low c (Nat.le_refl _), BitVec.getLsbD_twoPow, decide_eq_true c.isLt,
      decide_eq_true rfl] at bit
    cases bit
  · rw [← h.tracks, apply_xor, apply_eq_self_of_cleared h.cleared low, BitVec.xor_self]

/-! ## Inverses -/

theorem exists_kernel_of_invert?_eq_none {m : Matrix n} (h : m.invert? = none) :
    ∃ v, v ≠ 0#n ∧ m.apply v = 0#n := by
  have stopped : Elimination.run ⟨m, identity⟩ (List.finRange n) = none :=
    Option.map_eq_none_iff.1 h
  obtain ⟨s, found, -⟩ | ⟨-, c, s, reduces, stuck⟩ :=
    (Elimination.Reduces.start m).run (Nat.zero_le n)
  · cases stopped.symm.trans found
  · exact reduces.exists_kernel stuck

/-- There is an inverse exactly if no word but zero is sent to zero. -/
theorem exists_invert?_iff {m : Matrix n} :
    (∃ inverse, m.invert? = some inverse) ↔ ∀ v, m.apply v = 0#n → v = 0#n := by
  constructor
  · rintro ⟨inverse, h⟩ v zero
    rw [← (invert?_apply h).1 v, zero, apply_zero]
  · intro injective
    cases h : m.invert? with
    | some inverse => exact ⟨inverse, rfl⟩
    | none =>
      obtain ⟨v, nonzero, zero⟩ := exists_kernel_of_invert?_eq_none h
      exact absurd (injective v zero) nonzero

/-- What undoes the matrix when it is applied after it is the inverse. -/
theorem invert?_eq_some_iff_left {m inverse : Matrix n} :
    m.invert? = some inverse ↔ inverse.mul m = identity := by
  constructor
  · exact fun h => (invert?_mul h).2
  · intro h
    have undoes (v : BitVec n) : inverse.apply (m.apply v) = v := by
      rw [← apply_mul, h, apply_identity]
    obtain ⟨found, hf⟩ : ∃ found, m.invert? = some found :=
      exists_invert?_iff.2 fun v zero => by rw [← undoes v, zero, apply_zero]
    have same : inverse = found := ext_apply fun v => by
      rw [← (invert?_apply hf).2 v, undoes, (invert?_apply hf).2]
    rw [hf, same]

/-- What undoes the matrix when it is applied before it is the inverse. -/
theorem invert?_eq_some_iff {m inverse : Matrix n} :
    m.invert? = some inverse ↔ m.mul inverse = identity := by
  constructor
  · exact fun h => (invert?_mul h).1
  · -- The matrix is what undoes the other one, and so the other one undoes it.
    intro h
    exact invert?_eq_some_iff_left.2 (invert?_mul (invert?_eq_some_iff_left.2 h)).1

/-- Elimination is sound and complete: it finds an inverse exactly if no word but zero is sent
to zero.  What it finds is the inverse on both sides, and the only one on either side.  If it
finds none, there is none on either side. -/
theorem invert?_or_kernel (m : Matrix n) :
    ((∃ inverse, m.invert? = some inverse) ↔ ¬ ∃ v, v ≠ 0#n ∧ m.apply v = 0#n) ∧
      (∀ inverse, m.invert? = some inverse →
        m.mul inverse = identity ∧ inverse.mul m = identity ∧
          (∀ v, inverse.apply (m.apply v) = v ∧ m.apply (inverse.apply v) = v) ∧
          ∀ other : Matrix n, m.mul other = identity ∨ other.mul m = identity →
            other = inverse) ∧
      (m.invert? = none →
        (∃ v, v ≠ 0#n ∧ m.apply v = 0#n) ∧
          ∀ other : Matrix n, m.mul other ≠ identity ∧ other.mul m ≠ identity) := by
  refine ⟨?_, fun inverse h => ?_, fun h => ?_⟩
  · rw [exists_invert?_iff, not_exists]
    refine forall_congr' fun v => ?_
    rw [not_and', ne_eq, not_not]
  · obtain ⟨right, left⟩ := invert?_mul h
    obtain ⟨after, before⟩ := invert?_apply h
    refine ⟨right, left, fun v => ⟨after v, before v⟩, fun other one => ?_⟩
    have found : m.invert? = some other :=
      one.elim invert?_eq_some_iff.2 invert?_eq_some_iff_left.2
    exact Option.some.inj (found.symm.trans h)
  · refine ⟨exists_kernel_of_invert?_eq_none h, fun other => ⟨fun right => ?_, fun left => ?_⟩⟩
    · cases h.symm.trans (invert?_eq_some_iff.2 right)
    · cases h.symm.trans (invert?_eq_some_iff_left.2 left)

/-- A matrix that needs a row swap, and one whose third row is the sum of the first two. -/
theorem invert?_or_kernel_rows :
    (⟨#v[2, 1, 4, 8, 16, 32, 64, 129]⟩ : Matrix 8).invert? =
        some ⟨#v[2, 1, 4, 8, 16, 32, 64, 130]⟩ ∧
      (∀ other : Matrix 8, other.mul ⟨#v[2, 1, 4, 8, 16, 32, 64, 129]⟩ = identity →
        other = ⟨#v[2, 1, 4, 8, 16, 32, 64, 130]⟩) ∧
      (⟨#v[1, 2, 3, 8, 16, 32, 64, 128]⟩ : Matrix 8).invert? = none ∧
      ∀ other : Matrix 8, other.mul ⟨#v[1, 2, 3, 8, 16, 32, 64, 128]⟩ ≠ identity := by
  have found : (⟨#v[2, 1, 4, 8, 16, 32, 64, 129]⟩ : Matrix 8).invert? =
      some ⟨#v[2, 1, 4, 8, 16, 32, 64, 130]⟩ := by decide
  have none : (⟨#v[1, 2, 3, 8, 16, 32, 64, 128]⟩ : Matrix 8).invert? = none := by decide
  obtain ⟨-, -, -, unique⟩ := (invert?_or_kernel _).2.1 _ found
  obtain ⟨-, refused⟩ := (invert?_or_kernel _).2.2 none
  exact ⟨found, fun other left => unique other (.inr left), none, fun other => (refused other).2⟩

end WhiteBox.Matrix
