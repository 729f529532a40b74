import Mathlib.Data.Fin.Tuple.Basic
import WhiteBox.Proofs.Matrix.Block
import WhiteBox.Proofs.Matrix.Group

/-!
# Drawn matrices are the first invertible candidates

A draw answers the first invertible candidate and leaves the stream right behind its block, so
the next draw, of whatever width, begins there.  `Draws` says so for a sequence of draws and
without a limit on how far each of them looks; draws with a limit are the same if the limit is
high enough (`exists_drawMatrices?_iff`).

Whether a candidate is refused depends on its own block only, so the words of a draw are some
blocks of singular matrices and one block of the matrix that is drawn.  Every matrix has the same
number of blocks.  Hence every invertible matrix is drawn from the same number of sequences of
words, for each length (`ncard_drawMatrix?`).
-/

namespace WhiteBox

variable {size : MixingSize} {s : WordStream} {limit pos next : Nat}

/-! ## Sequences of draws -/

/-- Matrices drawn one after the other from a position on, and the position behind them. -/
inductive Draws (s : WordStream) : Nat → List SizedMatrix → Nat → Prop where
  /-- Nothing is drawn. -/
  | done (pos : Nat) : Draws s pos [] pos
  /-- The first invertible candidate is drawn, and then others from the words behind it. -/
  | draw {size : MixingSize} {pos k next : Nat} {ms : List SizedMatrix} :
      (∀ j < k, (candidateAt size s pos j).isInvertible = false) →
        (candidateAt size s pos k).isInvertible = true →
        Draws s (pos + (k + 1) * size.candidateWords) ms next →
        Draws s pos (⟨size, candidateAt size s pos k⟩ :: ms) next

/-- A higher limit does not change what is drawn. -/
theorem drawMatrix?_of_le {limit' : Nat} (le : limit ≤ limit') {r : Matrix size.bits × Nat}
    (h : drawMatrix? size s limit pos = some r) : drawMatrix? size s limit' pos = some r := by
  obtain ⟨m, next⟩ := r
  obtain ⟨k, lt, found⟩ := drawMatrix?_eq_some_iff.1 h
  exact drawMatrix?_eq_some_iff.2 ⟨k, Nat.lt_of_lt_of_le lt le, found⟩

theorem drawMatrices?_of_le {limit' : Nat} (le : limit ≤ limit') {sizes : List MixingSize}
    {r : List SizedMatrix × Nat} (h : drawMatrices? s limit sizes pos = some r) :
    drawMatrices? s limit' sizes pos = some r := by
  induction sizes generalizing pos r with
  | nil => exact h
  | cons size sizes ih =>
    obtain ⟨⟨m, mid⟩, first, h⟩ := Option.bind_eq_some_iff.1 h
    obtain ⟨rest, others, h⟩ := Option.bind_eq_some_iff.1 h
    exact Option.bind_eq_some_iff.2 ⟨(m, mid), drawMatrix?_of_le le first,
      Option.bind_eq_some_iff.2 ⟨rest, ih others, h⟩⟩

theorem Draws.of_drawMatrices? {sizes : List MixingSize} {ms : List SizedMatrix}
    (h : drawMatrices? s limit sizes pos = some (ms, next)) :
    ms.map SizedMatrix.size = sizes ∧ Draws s pos ms next := by
  induction sizes generalizing pos ms with
  | nil =>
    cases h
    exact ⟨rfl, .done _⟩
  | cons size sizes ih =>
    obtain ⟨⟨m, mid⟩, first, h⟩ := Option.bind_eq_some_iff.1 h
    obtain ⟨⟨rest, last⟩, others, h⟩ := Option.bind_eq_some_iff.1 h
    cases h
    obtain ⟨k, -, before, found, rfl, rfl⟩ := drawMatrix?_eq_some_iff.1 first
    obtain ⟨rfl, draws⟩ := ih others
    exact ⟨rfl, .draw before found draws⟩

theorem Draws.exists_drawMatrices? {ms : List SizedMatrix} (draws : Draws s pos ms next) :
    ∃ limit, drawMatrices? s limit (ms.map SizedMatrix.size) pos = some (ms, next) := by
  induction draws with
  | done pos => exact ⟨0, rfl⟩
  | @draw size pos k next ms before found _ ih =>
    obtain ⟨limit, others⟩ := ih
    have first : drawMatrix? size s (max (k + 1) limit) pos =
        some (candidateAt size s pos k, pos + (k + 1) * size.candidateWords) :=
      drawMatrix?_eq_some_iff.2
        ⟨k, Nat.lt_of_lt_of_le (Nat.lt_succ_self k) (Nat.le_max_left _ _), before, found, rfl, rfl⟩
    exact ⟨max (k + 1) limit, Option.bind_eq_some_iff.2 ⟨_, first, Option.bind_eq_some_iff.2
      ⟨_, drawMatrices?_of_le (Nat.le_max_right _ _) others, rfl⟩⟩⟩

/-- Draws return if there are invertible candidates to draw. -/
theorem exists_drawMatrices?_iff {sizes : List MixingSize} {ms : List SizedMatrix} :
    (∃ limit, drawMatrices? s limit sizes pos = some (ms, next)) ↔
      ms.map SizedMatrix.size = sizes ∧ Draws s pos ms next := by
  constructor
  · rintro ⟨limit, h⟩
    exact Draws.of_drawMatrices? h
  · rintro ⟨rfl, draws⟩
    exact draws.exists_drawMatrices?

theorem Draws.isInvertible {ms : List SizedMatrix} (draws : Draws s pos ms next) {m : SizedMatrix}
    (mem : m ∈ ms) : m.matrix.isInvertible = true := by
  induction draws with
  | done pos => cases mem
  | draw _ found _ ih =>
    cases mem with
    | head => exact found
    | tail _ mem => exact ih mem

/-! ## The words of a draw -/

theorem MixingSize.candidateWords_pos (size : MixingSize) : 0 < size.candidateWords := by
  cases size <;> decide

/-- A draw ends behind candidate `k` if the candidates before it are singular. -/
theorem drawMatrix?_succ_eq_some_iff {k : Nat} {m : Matrix size.bits} (h : m.isInvertible = true) :
    drawMatrix? size s (k + 1) pos = some (m, pos + (k + 1) * size.candidateWords) ↔
      (∀ j < k, (candidateAt size s pos j).isInvertible = false) ∧
        candidateAt size s pos k = m := by
  rw [drawMatrix?_eq_some_iff]
  constructor
  · rintro ⟨l, -, before, -, rfl, same⟩
    obtain rfl : k = l :=
      Nat.succ.inj (Nat.eq_of_mul_eq_mul_right size.candidateWords_pos (Nat.add_left_cancel same))
    exact ⟨before, rfl⟩
  · rintro ⟨before, rfl⟩
    exact ⟨k, Nat.lt_succ_self k, before, h, rfl, rfl⟩

/-- The blocks that give a singular matrix. -/
def singularBlocks (size : MixingSize) : Set (WordBlock size) :=
  {block | (ofBlock block).isInvertible = false}

theorem candidateAt_fill {k : Nat} (words : Fin (k * size.candidateWords) → UInt32) (j : Fin k) :
    candidateAt size (fill words) 0 j = ofBlock (pieces k size.candidateWords words j) := by
  rw [candidateAt, candidate_eq_ofBlock]
  congr 1
  funext i
  rw [Nat.zero_add, fill_piece]

/-- A product of sets has as many elements as the product of their numbers of elements. -/
theorem ncard_univ_pi {k : Nat} {α : Type} (t : Fin k → Set α) :
    (Set.univ.pi t).ncard = ∏ i, (t i).ncard := by
  simp only [← Nat.card_coe_set_eq]
  rw [Nat.card_congr (Equiv.Set.univPi t), Nat.card_pi]

/-- Every invertible matrix is drawn as candidate `k` from the same number of sequences of
words. -/
theorem ncard_drawMatrix? {m : Matrix size.bits} (h : m.isInvertible = true) (k : Nat) :
    {words : Fin ((k + 1) * size.candidateWords) → UInt32 |
        drawMatrix? size (fill words) (k + 1) 0 = some (m, (k + 1) * size.candidateWords)}.ncard =
      (singularBlocks size).ncard ^ k * size.copies := by
  -- The last block gives the matrix, and those before it are singular.
  let allowed : Fin (k + 1) → Set (WordBlock size) :=
    Fin.snoc (fun _ => singularBlocks size) {block | ofBlock block = m}
  have drawn (s : WordStream) :
      drawMatrix? size s (k + 1) 0 = some (m, (k + 1) * size.candidateWords) ↔
        (∀ j : Fin k, (candidateAt size s 0 j).isInvertible = false) ∧
          candidateAt size s 0 k = m := by
    rw [Fin.forall_iff, ← drawMatrix?_succ_eq_some_iff h, Nat.zero_add]
  have words : {words : Fin ((k + 1) * size.candidateWords) → UInt32 |
      drawMatrix? size (fill words) (k + 1) 0 = some (m, (k + 1) * size.candidateWords)} =
        (pieces (k + 1) size.candidateWords).symm '' Set.univ.pi allowed := by
    rw [Equiv.image_symm_eq_preimage]
    ext words
    have last := candidateAt_fill words (Fin.last k)
    have before (j : Fin k) := candidateAt_fill words j.castSucc
    rw [Fin.val_last] at last
    simp only [Fin.val_castSucc] at before
    simp only [Set.mem_ofPred_eq, drawn, last, before, Set.mem_preimage, Set.mem_univ_pi,
      Fin.forall_fin_succ', allowed, Fin.snoc_castSucc, Fin.snoc_last, singularBlocks]
  rw [words, Set.ncard_image_of_injective _ (Equiv.injective _), ncard_univ_pi,
    Fin.prod_univ_castSucc]
  simp only [allowed, Fin.snoc_castSucc, Fin.snoc_last, Finset.prod_const, Finset.card_univ,
    Fintype.card_fin, ncard_ofBlock]

theorem exists_drawMatrix?_iff :
    (∃ limit r, drawMatrix? size s limit pos = some r) ↔
      ∃ k, (candidateAt size s pos k).isInvertible = true := by
  constructor
  · rintro ⟨limit, ⟨m, next⟩, drawn⟩
    obtain ⟨k, -, -, found, -⟩ := drawMatrix?_eq_some_iff.1 drawn
    exact ⟨k, found⟩
  · rintro ⟨k, found⟩
    exact ⟨k + 1, drawMatrix?_of_exists ⟨k, Nat.lt_succ_self k, found⟩⟩

/-- Matrices are drawn by rejection from any stream of words.  A candidate takes eight words at
width eight, of which the low bytes are its rows, 32 words at width 32, and at width 128 four
words for each row, least significant first.

A draw returns if a candidate is invertible.  It answers the first one, and the position behind
the words of the candidates up to this one.  A sequence of draws of any widths goes on from
there each time, and everything that it draws is invertible and has an inverse.

A candidate is the matrix of its block of words, and every matrix is that of the same number of
blocks.  Every invertible matrix is drawn as candidate `k` from the same number of sequences of
words. -/
theorem draws_first_invertible :
    (MixingSize.byte.candidateWords = 8 ∧ MixingSize.word.candidateWords = 32 ∧
      MixingSize.block.candidateWords = 512) ∧
    (∀ (s : WordStream) (pos k : Nat),
      (∀ i : Fin 8,
        (candidateAt .byte s pos k).row i = (s (pos + k * 8 + i)).toBitVec.setWidth 8) ∧
      (∀ i : Fin 32, (candidateAt .word s pos k).row i = (s (pos + k * 32 + i)).toBitVec) ∧
      ∀ i : Fin 128, (candidateAt .block s pos k).row i =
        (s (pos + k * 512 + 4 * i + 3)).toBitVec ++ (s (pos + k * 512 + 4 * i + 2)).toBitVec ++
          (s (pos + k * 512 + 4 * i + 1)).toBitVec ++ (s (pos + k * 512 + 4 * i)).toBitVec) ∧
    (∀ (size : MixingSize) (s : WordStream) (pos : Nat),
      ((∃ limit r, drawMatrix? size s limit pos = some r) ↔
        ∃ k, (candidateAt size s pos k).isInvertible = true) ∧
      ∀ limit m next, drawMatrix? size s limit pos = some (m, next) ↔
        ∃ k < limit, (∀ j < k, (candidateAt size s pos j).isInvertible = false) ∧
          (candidateAt size s pos k).isInvertible = true ∧
          m = candidateAt size s pos k ∧ next = pos + (k + 1) * size.candidateWords) ∧
    (∀ (s : WordStream) (sizes : List MixingSize) (pos : Nat) (ms : List SizedMatrix) (next : Nat),
      ((∃ limit, drawMatrices? s limit sizes pos = some (ms, next)) ↔
        ms.map SizedMatrix.size = sizes ∧ Draws s pos ms next) ∧
      ∀ limit, drawMatrices? s limit sizes pos = some (ms, next) →
        ∀ m ∈ ms, m.matrix.isInvertible = true ∧ ∃ inverse, m.matrix.invert? = some inverse) ∧
    ∀ size : MixingSize,
      (∀ (s : WordStream) (pos : Nat),
        candidate size s pos = ofBlock fun i : Fin size.candidateWords => s (pos + i)) ∧
      (∀ m : Matrix size.bits, {block | ofBlock block = m}.ncard = size.copies) ∧
      ∀ m : Matrix size.bits, m.isInvertible = true → ∀ k : Nat,
        {words : Fin ((k + 1) * size.candidateWords) → UInt32 |
            drawMatrix? size (fill words) (k + 1) 0 =
              some (m, (k + 1) * size.candidateWords)}.ncard =
          (singularBlocks size).ncard ^ k * size.copies := by
  refine ⟨⟨rfl, rfl, rfl⟩, fun s pos k => ⟨row_byte s pos k, row_word s pos k, row_block s pos k⟩,
    fun size s pos => ⟨exists_drawMatrix?_iff, fun limit m next => drawMatrix?_eq_some_iff⟩,
    fun s sizes pos ms next => ⟨exists_drawMatrices?_iff, fun limit drawn m mem => ?_⟩,
    fun size => ⟨candidate_eq_ofBlock, ncard_ofBlock, fun m h => ncard_drawMatrix? h⟩⟩
  obtain ⟨-, draws⟩ := Draws.of_drawMatrices? drawn
  have found := draws.isInvertible mem
  exact ⟨found, Matrix.isInvertible_iff.1 found⟩

/-- The powers of two over and over.  From word 24 on the first matrix on bytes is singular, as
no word has its set bit in the low byte, and the second is the identity.  The next matrix on
words begins in the middle of the powers. -/
theorem draws_first_invertible_powers :
    ∃ limit, ∃ word : Matrix 32,
      drawMatrices? (fun i => UInt32.ofNat (2 ^ (i % 32))) limit [.byte, .word] 24 =
        some ([⟨.byte, .identity⟩, ⟨.word, word⟩], 72) ∧
      (∃ inverse, word.invert? = some inverse) ∧
      {words : Fin 16 → UInt32 |
          drawMatrix? .byte (fill words) 2 0 = some (.identity, 16)}.ncard =
        (singularBlocks .byte).ncard ^ 1 * 2 ^ 192 := by
  let s : WordStream := fun i => UInt32.ofNat (2 ^ (i % 32))
  obtain ⟨-, -, -, sequence, blocks⟩ := draws_first_invertible
  have draws :
      Draws s 24 [⟨.byte, candidateAt .byte s 24 1⟩, ⟨.word, candidateAt .word s 40 0⟩] 72 :=
    .draw (by decide +kernel) (by decide +kernel) <|
      .draw (by decide +kernel) (by decide +kernel) (.done 72)
  obtain ⟨limit, drawn⟩ := (sequence s [.byte, .word] 24 _ 72).1.2 ⟨rfl, draws⟩
  have first : candidateAt .byte s 24 1 = .identity := by decide +kernel
  have inverse := ((sequence s [.byte, .word] 24 _ 72).2 limit drawn _ (.tail _ (.head _))).2
  rw [first] at drawn
  exact ⟨limit, _, drawn, inverse, (blocks .byte).2.2 .identity (by decide +kernel) 1⟩

end WhiteBox
