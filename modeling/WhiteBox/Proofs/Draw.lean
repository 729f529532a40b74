import Mathlib.Data.Nat.Periodic
import WhiteBox.KeyedMap

/-!
# When a draw returns

A search for an invertible matrix answers the first invertible candidate and stops right
behind it (`drawMatrix?_eq_some_iff`).  A row of a candidate is the low byte of a word, a word, or
four words (`row_byte`, `row_word`, `row_block`).

The search in a key stream looks at one period of candidates.  The candidates of the next period
are the same ones, so it finds a matrix exactly when the endless stream holds an invertible
candidate at all (`KeyContext.exists_mixingBijection_iff`).
-/

namespace WhiteBox

/-! ## The search -/

variable {size : MixingSize} {s : WordStream}

/-- Candidate `k` from a position on. -/
def candidateAt (size : MixingSize) (s : WordStream) (pos k : Nat) : Matrix size.bits :=
  candidate size s (pos + k * size.candidateWords)

theorem candidateAt_zero (pos : Nat) : candidateAt size s pos 0 = candidate size s pos := by
  rw [candidateAt, Nat.zero_mul, Nat.add_zero]

theorem candidateAt_succ (pos k : Nat) :
    candidateAt size s (pos + size.candidateWords) k = candidateAt size s pos (k + 1) := by
  rw [candidateAt, candidateAt, Nat.succ_mul, Nat.add_assoc, Nat.add_comm size.candidateWords]

/-- A search that gives up after `limit` candidates answers the first invertible one of
them, and the position behind its words. -/
theorem drawMatrix?_eq_some_iff {limit pos next : Nat} {m : Matrix size.bits} :
    drawMatrix? size s limit pos = some (m, next) ↔
      ∃ k < limit, (∀ j < k, (candidateAt size s pos j).isInvertible = false) ∧
        (candidateAt size s pos k).isInvertible = true ∧
        m = candidateAt size s pos k ∧ next = pos + (k + 1) * size.candidateWords := by
  induction limit generalizing pos with
  | zero => simp [drawMatrix?]
  | succ limit ih =>
    rw [drawMatrix?]
    cases first : (candidate size s pos).isInvertible with
    | true =>
      rw [if_pos rfl]
      constructor
      · intro h
        cases h
        refine ⟨0, Nat.succ_pos limit, fun j hj => absurd hj (Nat.not_lt_zero j), ?_, ?_, ?_⟩
        · rw [candidateAt_zero, first]
        · rw [candidateAt_zero]
        · rw [Nat.zero_add, Nat.one_mul]
      · rintro ⟨k, -, before, -, rfl, rfl⟩
        cases k with
        | zero => rw [candidateAt_zero, Nat.zero_add, Nat.one_mul]
        | succ k =>
          have h := before 0 (Nat.succ_pos k)
          rw [candidateAt_zero, first] at h
          cases h
    | false =>
      rw [if_neg Bool.false_ne_true, ih]
      constructor
      · rintro ⟨k, hk, before, found, rfl, rfl⟩
        rw [candidateAt_succ] at found ⊢
        refine ⟨k + 1, Nat.succ_lt_succ hk, fun j hj => ?_, found, rfl, ?_⟩
        · cases j with
          | zero => rw [candidateAt_zero, first]
          | succ j => rw [← candidateAt_succ]; exact before j (Nat.lt_of_succ_lt_succ hj)
        · rw [Nat.succ_mul (k + 1)]; omega
      · rintro ⟨k, hk, before, found, rfl, rfl⟩
        cases k with
        | zero =>
          rw [candidateAt_zero, first] at found
          cases found
        | succ k =>
          refine ⟨k, Nat.lt_of_succ_lt_succ hk, fun j hj => ?_, ?_, ?_, ?_⟩
          · rw [candidateAt_succ]; exact before (j + 1) (Nat.succ_lt_succ hj)
          · rw [candidateAt_succ]; exact found
          · rw [candidateAt_succ]
          · rw [Nat.succ_mul (k + 1)]; omega

theorem drawMatrix?_of_exists {limit pos : Nat}
    (h : ∃ k < limit, (candidateAt size s pos k).isInvertible = true) :
    ∃ r, drawMatrix? size s limit pos = some r := by
  classical
  let k := Nat.find h
  obtain ⟨lt, found⟩ := Nat.find_spec h
  have before (j : Nat) (hj : j < k) : (candidateAt size s pos j).isInvertible = false := by
    have none := Nat.find_min h hj
    cases e : (candidateAt size s pos j).isInvertible with
    | false => rfl
    | true => exact absurd ⟨Nat.lt_trans hj lt, e⟩ none
  exact ⟨(_, _), drawMatrix?_eq_some_iff.2 ⟨k, lt, before, found, rfl, rfl⟩⟩

/-! ## Rows of the three widths -/

/-- Two matrices with the same rows are equal. -/
theorem Matrix.ext_row {n : Nat} {a b : Matrix n} (h : ∀ i, a.row i = b.row i) : a = b :=
  ext_entry fun i j => by rw [entry, entry, h]

theorem ofNat_wordsValue_one (s : WordStream) (pos : Nat) :
    BitVec.ofNat 32 (wordsValue s pos 1) = (s pos).toBitVec := by
  show BitVec.ofNat 32 (s pos).toBitVec.toNat = _
  rw [BitVec.ofNat_toNat, BitVec.setWidth_eq]

/-- The first of several words is the lowest part of their value. -/
theorem ofNat_wordsValue_succ (s : WordStream) (pos k n : Nat) :
    BitVec.ofNat (n + 32) (wordsValue s pos (k + 1)) =
      BitVec.ofNat n (wordsValue s (pos + 1) k) ++ (s pos).toBitVec := by
  have low : (s pos).toNat < UInt32.size := (s pos).toNat_lt
  have width : 2 ^ (n + 32) = UInt32.size * 2 ^ n := Nat.pow_add' 2 n 32
  refine BitVec.eq_of_toNat_eq ?_
  rw [BitVec.toNat_append, ← Nat.shiftLeft_add_eq_or_of_lt (s pos).toBitVec.isLt, Nat.shiftLeft_eq,
    BitVec.toNat_ofNat, BitVec.toNat_ofNat, wordsValue, width, Nat.mod_mul,
    Nat.add_mul_mod_self_left, Nat.add_mul_div_left _ _ (by decide), Nat.mod_eq_of_lt low,
    Nat.div_eq_of_lt low, Nat.zero_add, Nat.add_comm, Nat.mul_comm]
  rfl

/-- At width eight a row is the low byte of a word. -/
theorem row_byte (s : WordStream) (pos k : Nat) (i : Fin 8) :
    (candidateAt .byte s pos k).row i = (s (pos + k * 8 + i)).toBitVec.setWidth 8 := by
  rw [candidateAt, candidate, Matrix.row_ofFn]
  show BitVec.ofNat 8 (s (pos + k * 8 + 1 * i)).toNat = _
  rw [Nat.one_mul]
  rfl

/-- At width 32 a row is a word. -/
theorem row_word (s : WordStream) (pos k : Nat) (i : Fin 32) :
    (candidateAt .word s pos k).row i = (s (pos + k * 32 + i)).toBitVec := by
  rw [candidateAt, candidate, Matrix.row_ofFn]
  show BitVec.ofNat 32 (wordsValue s (pos + k * 32 + 1 * i) 1) = _
  rw [Nat.one_mul, ofNat_wordsValue_one]

/-- At width 128 a row is four words, least significant first. -/
theorem row_block (s : WordStream) (pos k : Nat) (i : Fin 128) :
    (candidateAt .block s pos k).row i =
      (s (pos + k * 512 + 4 * i + 3)).toBitVec ++ (s (pos + k * 512 + 4 * i + 2)).toBitVec ++
        (s (pos + k * 512 + 4 * i + 1)).toBitVec ++ (s (pos + k * 512 + 4 * i)).toBitVec := by
  rw [candidateAt, candidate, Matrix.row_ofFn]
  show BitVec.ofNat (32 + 32 + 32 + 32) (wordsValue s (pos + k * 512 + 4 * i) 4) = _
  rw [ofNat_wordsValue_succ, ofNat_wordsValue_succ, ofNat_wordsValue_succ, ofNat_wordsValue_one]

/-! ## Candidates of a periodic stream -/

theorem wordsValue_add {d : Nat} (periodic : ∀ i, s (i + d) = s i) (pos k : Nat) :
    wordsValue s (pos + d) k = wordsValue s pos k := by
  induction k generalizing pos with
  | zero => rfl
  | succ k ih =>
    have next : pos + d + 1 = pos + 1 + d := by omega
    rw [wordsValue, wordsValue, periodic, next, ih]

theorem candidate_add {d : Nat} (periodic : ∀ i, s (i + d) = s i) (pos : Nat) :
    candidate size s (pos + d) = candidate size s pos := by
  have row (i : Nat) : pos + d + size.wordsPerRow * i = pos + size.wordsPerRow * i + d := by omega
  simp only [candidate, row, wordsValue_add periodic]

theorem candidateAt_mod {p : Nat} (periodic : Function.Periodic s p) (pos k : Nat) :
    candidateAt size s pos (k % p) = candidateAt size s pos k := by
  have repeats : Function.Periodic (candidateAt size s pos) p := by
    intro k
    have words : pos + (k + p) * size.candidateWords =
        pos + k * size.candidateWords + size.candidateWords * p := by
      rw [Nat.add_mul, Nat.mul_comm p, Nat.add_assoc]
    have shift : Function.Periodic s (size.candidateWords * p) := by
      simpa using periodic.nat_mul size.candidateWords
    rw [candidateAt, words, candidate_add shift, candidateAt]
  exact repeats.map_mod_nat k

/-! ## Candidates in blocks of a key stream -/

theorem ChaCha20.word_block (key : ChaCha20.Key) (n : Nat) (j : Fin 16) :
    ChaCha20.word key (16 * n + j) = (ChaCha20.block key n).get j := by
  have hd : (16 * n + j.val) / 16 = n := by omega
  have hm : (16 * n + j.val) % 16 = j := by omega
  simp only [ChaCha20.word, hd, hm]

/-- The candidate on bytes that one half of a block holds. -/
def halfBlock (block : ChaCha20.State) (half : Fin 2) : Matrix 8 :=
  ⟨Vector.ofFn fun i => BitVec.ofNat 8 (block.get ⟨8 * half + i, by omega⟩).toNat⟩

theorem candidateAt_byte (key : ChaCha20.Key) (n : Nat) (half : Fin 2) :
    candidateAt .byte (ChaCha20.word key) 0 (2 * n + half) =
      halfBlock (ChaCha20.block key n) half := by
  refine Matrix.ext_row fun i : Fin 8 => ?_
  have place : 0 + (2 * n + half.val) * 8 + i.val = 16 * n + (8 * half + i) := by omega
  rw [row_byte, halfBlock, Matrix.row_ofFn, place]
  exact congrArg (fun w => BitVec.ofNat 8 w.toNat)
    (ChaCha20.word_block key n ⟨8 * half + i, by omega⟩)

/-- The candidate on words that two blocks hold. -/
def blockPair (low high : ChaCha20.State) : Matrix 32 :=
  ⟨Vector.ofFn fun i =>
    if h : i.val < 16 then (low.get ⟨i, h⟩).toBitVec else (high.get ⟨i - 16, by omega⟩).toBitVec⟩

theorem candidateAt_word (key : ChaCha20.Key) (n : Nat) :
    candidateAt .word (ChaCha20.word key) 0 n =
      blockPair (ChaCha20.block key (2 * n)) (ChaCha20.block key (2 * n + 1)) := by
  refine Matrix.ext_row fun i : Fin 32 => ?_
  rw [row_word, blockPair, Matrix.row_ofFn]
  split
  · rename_i low
    have place : 0 + n * 32 + i.val = 16 * (2 * n) + i := by omega
    rw [place]
    exact congrArg UInt32.toBitVec (ChaCha20.word_block key (2 * n) ⟨i, low⟩)
  · rename_i high
    have place : 0 + n * 32 + i.val = 16 * (2 * n + 1) + (i - 16) := by omega
    rw [place]
    exact congrArg UInt32.toBitVec (ChaCha20.word_block key (2 * n + 1) ⟨i - 16, by omega⟩)

/-! ## Keyed draws -/

namespace KeyContext

variable (ctx : KeyContext) (round : Option Round) (position : BytePos)

/-- The words that a mixing bijection is drawn from. -/
def mixingStream (size : MixingSize) : WordStream :=
  ChaCha20.word (ctx.streamKey (Role.mixing size round position).label)

/-- The stream of a mixing bijection holds an invertible candidate. -/
def HasMixing (size : MixingSize) : Prop :=
  ∃ k, (candidateAt size (ctx.mixingStream round position size) 0 k).isInvertible = true

variable {ctx round position}

theorem mixingBijection_eq_ok_iff {m : Matrix size.bits} :
    ctx.mixingBijection size round position = .ok m ↔
      ∃ next, drawMatrix? size (ctx.mixingStream round position size) searchLimit 0 =
        some (m, next) := by
  unfold mixingBijection mixingStream
  dsimp only
  cases drawMatrix? size (ChaCha20.word (ctx.streamKey (Role.mixing size round position).label))
      searchLimit 0 with
  | none => simp
  | some r => obtain ⟨a, next⟩ := r; simp

/-- What is drawn is invertible. -/
theorem isInvertible_of_mixingBijection {m : Matrix size.bits}
    (h : ctx.mixingBijection size round position = .ok m) : m.isInvertible = true := by
  obtain ⟨next, draw⟩ := mixingBijection_eq_ok_iff.1 h
  obtain ⟨k, -, -, found, rfl, -⟩ := drawMatrix?_eq_some_iff.1 draw
  exact found

theorem exists_invert?_of_mixingBijection {m : Matrix size.bits}
    (h : ctx.mixingBijection size round position = .ok m) : ∃ inverse, m.invert? = some inverse :=
  Option.isSome_iff_exists.1 (isInvertible_of_mixingBijection h)

/-- A draw returns exactly when its stream holds an invertible candidate. -/
theorem exists_mixingBijection_iff :
    (∃ m, ctx.mixingBijection size round position = .ok m) ↔ ctx.HasMixing round position size := by
  constructor
  · rintro ⟨m, h⟩
    obtain ⟨next, draw⟩ := mixingBijection_eq_ok_iff.1 h
    obtain ⟨k, -, -, found, -⟩ := drawMatrix?_eq_some_iff.1 draw
    exact ⟨k, found⟩
  · rintro ⟨k, found⟩
    -- Candidate `k` is one of the first period.
    have early : k % searchLimit < searchLimit := Nat.mod_lt k (by decide)
    have same : candidateAt size (ctx.mixingStream round position size) 0 (k % searchLimit) =
        candidateAt size (ctx.mixingStream round position size) 0 k :=
      candidateAt_mod (ChaCha20.word_add_period _) 0 k
    obtain ⟨⟨m, next⟩, draw⟩ := drawMatrix?_of_exists ⟨_, early, (congrArg _ same).trans found⟩
    exact ⟨m, mixingBijection_eq_ok_iff.2 ⟨next, draw⟩⟩

/-- A stream whose first candidate is invertible. -/
theorem hasMixing_four : HasMixing ⟨[0x16]⟩ none ⟨4, by decide⟩ .byte :=
  ⟨2 * 0 + (0 : Fin 2), by
    rw [mixingStream, candidateAt_byte]
    decide +kernel⟩

end KeyContext

end WhiteBox
