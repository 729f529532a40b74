import Mathlib.Logic.Equiv.Basic
import WhiteBox.Matrix.Inverse

/-!
# What elimination finds is the inverse

`Matrix.invert?` does to the identity what it does to the matrix.  A row operation acts on
the result of a matrix and not on its argument (`Matrix.getLsbD_apply_swapRows`,
`Matrix.getLsbD_apply_addRow`), so two matrices that receive the same operations keep their
relation: throughout the elimination of `m`,

  `left.apply v = right.apply (m.apply v)`

for every word `v`.  Row operations also lose nothing, so `right` sends no other word than
zero to zero.  These two facts and the shape of the cleared columns are
`Elimination.Reduces`; one column keeps them (`Elimination.Reduces.clear`), and so does a
run, until it ends or comes to a column without a pivot (`Elimination.Reduces.run`).  At the
end every column is cleared, which makes `left` the identity and `right` the inverse, from both
sides (`Matrix.invert?_apply`).
-/

namespace WhiteBox.Matrix

variable {n : Nat}

/-! ## Action on zero and on sums -/

theorem parityBelow_zero (k : Nat) : parityBelow 0#n k = false := by
  induction k with
  | zero => rfl
  | succ k ih => simp [parityBelow, ih]

theorem getLsbD_apply (m : Matrix n) (v : BitVec n) (i : Fin n) :
    (m.apply v).getLsbD i = parity (m.row i &&& v) := by
  rw [BitVec.getLsbD_eq_getElem i.isLt, getElem_apply]

/-- Two words with the same bits are equal. -/
theorem word_ext {u v : BitVec n} (h : ∀ i : Fin n, u.getLsbD i = v.getLsbD i) : u = v :=
  BitVec.eq_of_getLsbD_eq fun i hi => h ⟨i, hi⟩

@[simp] theorem apply_zero (m : Matrix n) : m.apply 0#n = 0#n := by
  refine word_ext fun i => ?_
  rw [getLsbD_apply, BitVec.and_zero, parity, parityBelow_zero, BitVec.getLsbD_zero]

theorem parityBelow_twoPow (v : BitVec n) (i : Fin n) (k : Nat) :
    parityBelow (BitVec.twoPow n i &&& v) k = (decide (i.val < k) && v.getLsbD i) := by
  induction k with
  | zero => simp [parityBelow]
  | succ k ih =>
    rw [parityBelow, ih, BitVec.getLsbD_and, BitVec.getLsbD_twoPow, decide_eq_true i.isLt]
    rcases Nat.lt_trichotomy i.val k with h | h | h
    · simp [h, Nat.lt_succ_of_lt h, Nat.ne_of_lt h]
    · simp [h]
    · have h' : ¬ i.val < k + 1 := by omega
      simp [h', Nat.lt_asymm h, Nat.ne_of_gt h]

@[simp] theorem apply_identity (v : BitVec n) : (identity : Matrix n).apply v = v := by
  refine word_ext fun i => ?_
  have row : (identity : Matrix n).row i = BitVec.twoPow n i := row_ofFn _ i
  rw [getLsbD_apply, row, parity, parityBelow_twoPow]
  simp

/-! ## Row operations -/

theorem row_swapRows (m : Matrix n) (i j k : Fin n) :
    (m.swapRows i j).row k = m.row (Equiv.swap i j k) := by
  have h : (m.swapRows i j).row k = if k.val = i.val then m.rows[j.val]
      else if k.val = j.val then m.rows[i.val] else m.rows[k.val] :=
    Vector.getElem_swap i.isLt j.isLt k.isLt
  rw [h, Equiv.swap_apply_def]
  simp only [Fin.ext_iff]
  split
  · rfl
  · split
    · rfl
    · rfl

theorem row_addRow (m : Matrix n) (source : Fin n) (chosen : Fin n → Bool) (i : Fin n) :
    (m.addRow source chosen).row i =
      if chosen i then m.row i ^^^ m.row source else m.row i :=
  row_ofFn _ i

theorem entry_swapRows (m : Matrix n) (i j k l : Fin n) :
    (m.swapRows i j).entry k l = m.entry (Equiv.swap i j k) l := by
  rw [entry, row_swapRows, entry]

theorem entry_addRow (m : Matrix n) (source : Fin n) (chosen : Fin n → Bool) (i j : Fin n) :
    (m.addRow source chosen).entry i j = (m.entry i j ^^ (chosen i && m.entry source j)) := by
  rw [entry, row_addRow]
  cases chosen i <;> simp [entry]

/-- Exchanging rows exchanges bits of the result. -/
theorem getLsbD_apply_swapRows (m : Matrix n) (i j : Fin n) (v : BitVec n) (k : Fin n) :
    ((m.swapRows i j).apply v).getLsbD k = (m.apply v).getLsbD (Equiv.swap i j k) := by
  rw [getLsbD_apply, row_swapRows, getLsbD_apply]

/-- Adding a row to others adds its bit of the result to theirs. -/
theorem getLsbD_apply_addRow (m : Matrix n) (source : Fin n) (chosen : Fin n → Bool)
    (v : BitVec n) (i : Fin n) :
    ((m.addRow source chosen).apply v).getLsbD i =
      ((m.apply v).getLsbD i ^^ (chosen i && (m.apply v).getLsbD source)) := by
  rw [getLsbD_apply, row_addRow, getLsbD_apply, getLsbD_apply]
  cases chosen i with
  | false => simp
  | true =>
    have distrib : (m.row i ^^^ m.row source) &&& v = (m.row i &&& v) ^^^ (m.row source &&& v) := by
      ext j hj
      simp only [BitVec.getElem_and, BitVec.getElem_xor]
      cases v[j] <;> simp
    simp only [if_true, Bool.true_and, distrib, parity_xor]

/-! ## One column -/

/-- What holds while `m` is eliminated and the columns below `c` are cleared. -/
structure Elimination.Reduces (m : Matrix n) (c : Nat) (s : Elimination n) : Prop where
  /-- The left matrix is the right one after `m`. -/
  tracks : ∀ v, s.left.apply v = s.right.apply (m.apply v)
  /-- The right matrix loses nothing. -/
  faithful : ∀ v, s.right.apply v = 0#n → v = 0#n
  /-- A cleared column is one of the identity. -/
  cleared : ∀ i j : Fin n, j.val < c → s.left.entry i j = decide (i = j)

/-- The pivot is at or below the diagonal and has a bit in the column. -/
theorem pivot?_eq_some {m : Matrix n} {c p : Fin n} (h : m.pivot? c = some p) :
    c ≤ p ∧ m.entry p c = true := by
  have found := List.find?_some h
  simpa using found

/-- A cleared entry: the one of the exchanged row, with the pivot row added to every row but
the diagonal one that has a bit in the column. -/
theorem entry_clear (m : Matrix n) (c p i j : Fin n) :
    ((m.swapRows p c).addRow c
        (fun i => decide (i ≠ c) && (m.swapRows p c).entry i c)).entry i j =
      (m.entry (Equiv.swap p c i) j ^^
        (decide (i ≠ c) && m.entry (Equiv.swap p c i) c && m.entry p j)) := by
  rw [entry_addRow, entry_swapRows, entry_swapRows, entry_swapRows, Equiv.swap_apply_right]

/-- Clearing a column keeps the relation of the two matrices and clears one column more. -/
theorem Elimination.Reduces.clear {m : Matrix n} {s s' : Elimination n} {c : Fin n}
    (h : Reduces m c.val s) (step : s.clear c = some s') : Reduces m (c.val + 1) s' := by
  obtain ⟨p, found, rfl⟩ : ∃ p, s.left.pivot? c = some p ∧ _ := by
    rw [Elimination.clear] at step
    cases hp : s.left.pivot? c with
    | none => rw [hp] at step; cases step
    | some p => rw [hp] at step; exact ⟨p, rfl, (Option.some.inj step).symm⟩
  obtain ⟨below, bit⟩ := pivot?_eq_some found
  constructor
  case tracks =>
    intro v
    refine word_ext fun i => ?_
    simp only [getLsbD_apply_addRow, getLsbD_apply_swapRows, h.tracks v]
  case faithful =>
    intro v zero
    apply h.faithful v
    have bits (i : Fin n) : _ = (0#n).getLsbD i :=
      congrArg (fun w : BitVec n => w.getLsbD i) zero
    simp only [getLsbD_apply_addRow, getLsbD_apply_swapRows, BitVec.getLsbD_zero] at bits
    -- The diagonal row is not added to itself, so its bit is zero and drops out elsewhere.
    have source : (s.right.apply v).getLsbD (Equiv.swap p c c) = false := by
      simpa using bits c
    refine word_ext fun i => ?_
    have b := bits (Equiv.swap p c i)
    rw [source, Bool.and_false, Bool.xor_false, Equiv.swap_apply_self] at b
    rw [b, BitVec.getLsbD_zero]
  case cleared =>
    intro i j hj
    rw [entry_clear]
    rcases Nat.lt_succ_iff_lt_or_eq.1 hj with older | this
    · -- The pivot row has no bit in an older column, and the exchanged rows are below it.
      have pj : j ≠ p := by rintro rfl; exact absurd older (Nat.not_lt.2 below)
      have cj : j ≠ c := by rintro rfl; exact absurd older (Nat.lt_irrefl _)
      rw [h.cleared p j older, h.cleared _ j older, decide_eq_false pj.symm, Bool.and_false,
        Bool.xor_false]
      simp only [Equiv.swap_apply_eq_iff, Equiv.swap_apply_of_ne_of_ne pj cj]
    · obtain rfl : j = c := Fin.ext this
      rw [bit, Bool.and_true]
      by_cases hi : i = j
      · subst hi
        rw [Equiv.swap_apply_right, bit]
        simp
      · simp [hi]

/-! ## All columns -/

/-- What holds before the first column. -/
theorem Elimination.Reduces.start (m : Matrix n) : Reduces m 0 ⟨m, identity⟩ where
  tracks v := (apply_identity _).symm
  faithful v h := by rwa [apply_identity] at h
  cleared _ _ h := absurd h (Nat.not_lt_zero _)

/-- A run through the columns from `c` on clears every column, or stops at one that has no
pivot. -/
theorem Elimination.Reduces.run {m : Matrix n} {s : Elimination n} {c : Nat}
    (h : Reduces m c s) (hc : c ≤ n) :
    (∃ s', s.run ((List.finRange n).drop c) = some s' ∧ Reduces m n s') ∨
      s.run ((List.finRange n).drop c) = none ∧
        ∃ (k : Fin n) (t : Elimination n), Reduces m k t ∧ t.left.pivot? k = none := by
  induction left : n - c generalizing c s with
  | zero =>
    obtain rfl : c = n := by omega
    rw [List.drop_of_length_le (by simp), Elimination.run]
    exact .inl ⟨s, rfl, h⟩
  | succ k ih =>
    have lt : c < n := by omega
    have columns : (List.finRange n).drop c = ⟨c, lt⟩ :: (List.finRange n).drop (c + 1) := by
      rw [List.drop_eq_getElem_cons (by simpa using lt), List.getElem_finRange]
      rfl
    rw [columns, Elimination.run]
    cases step : s.clear ⟨c, lt⟩ with
    | none =>
      have stuck : s.left.pivot? ⟨c, lt⟩ = none := by
        cases pivot : s.left.pivot? ⟨c, lt⟩ with
        | none => rfl
        | some p => rw [Elimination.clear, pivot] at step; cases step
      exact .inr ⟨rfl, ⟨c, lt⟩, s, h, stuck⟩
    | some t => exact ih (Reduces.clear (c := ⟨c, lt⟩) h step) lt (by omega)

/-- The matrix that elimination finds undoes the matrix, from both sides. -/
theorem invert?_apply {m inverse : Matrix n} (h : m.invert? = some inverse) :
    (∀ v, inverse.apply (m.apply v) = v) ∧ (∀ v, m.apply (inverse.apply v) = v) := by
  obtain ⟨s, run, rfl⟩ := Option.map_eq_some_iff.1 h
  have done : Elimination.Reduces m n s := by
    obtain ⟨s', found, done⟩ | ⟨stopped, -⟩ := (Elimination.Reduces.start m).run (Nat.zero_le n)
    · cases found.symm.trans run
      exact done
    · cases stopped.symm.trans run
  have left : s.left = identity := by
    refine ext_entry fun i j => ?_
    rw [done.cleared i j j.isLt, entry_identity]
  have undoes (v : BitVec n) : s.right.apply (m.apply v) = v := by
    rw [← done.tracks v, left, apply_identity]
  refine ⟨undoes, fun v => ?_⟩
  -- Both words go to the same word under the right matrix, which loses nothing.
  have zero : s.right.apply (m.apply (s.right.apply v) ^^^ v) = 0#n := by
    rw [apply_xor, undoes, BitVec.xor_self]
  exact BitVec.xor_eq_zero_iff.1 (done.faithful _ zero)

end WhiteBox.Matrix
