import WhiteBox.Proofs.Shuffle.Arrange
import WhiteBox.Proofs.Shuffle.Choice

/-!
# Drawn shuffles are unbiased

A draw walks through a stream and makes choices among sixteen, fifteen, …, two.  `Reads` says
which words it takes and which it skips, without a limit on how far it looks.  A draw returns
within some limit exactly if there are words to take, and then these words determine the shuffle
(`NibbleShuffle.exists_draw?_iff`).

So to draw a shuffle is to find words that make its choices.  A choice among `n` is made by
`2 ^ leadingZeros n` words, whichever choice it is.  Fifteen choices are made by as many sequences
of words as the product of these numbers says (`ncard_choicesOfWords?`), and each permutation has
its own choices.  Hence every permutation is made by the same number of sequences of words that
count, which is `2 ^ 427` (`NibbleShuffle.ncard_tableOfWords?`).
-/

namespace WhiteBox

/-! ## Words that make choices -/

/-- The choices among `i + 1`, `i`, …, two that words make one after the other, if each of them
counts. -/
def choicesOfWords? : Nat → List UInt32 → Option (List Nibble)
  | 0, [] => some []
  | i + 1, v :: words => do
    let j ← choiceOfWord? (i + 2) v
    let choices ← choicesOfWords? i words
    pure (BitVec.ofNat 4 j :: choices)
  | _, _ => none

theorem choicesOfWords?_zero_eq_some_iff {words : List UInt32} {choices : List Nibble} :
    choicesOfWords? 0 words = some choices ↔ words = [] ∧ choices = [] := by
  cases words with
  | nil => simp [choicesOfWords?, eq_comm]
  | cons v words => simp [choicesOfWords?]

theorem choicesOfWords?_succ_eq_some_iff {i : Nat} {words : List UInt32} {choices : List Nibble} :
    choicesOfWords? (i + 1) words = some choices ↔
      ∃ v rest j tail, words = v :: rest ∧ choices = BitVec.ofNat 4 j :: tail ∧
        choiceOfWord? (i + 2) v = some j ∧ choicesOfWords? i rest = some tail := by
  cases words with
  | nil => simp [choicesOfWords?]
  | cons v words =>
    simp only [choicesOfWords?, bind, Option.bind_eq_some_iff, pure, Option.some.injEq,
      List.cons.injEq]
    constructor
    · rintro ⟨j, choice, tail, others, rfl⟩
      exact ⟨v, words, j, tail, ⟨rfl, rfl⟩, rfl, choice, others⟩
    · rintro ⟨_, _, j, tail, ⟨rfl, rfl⟩, rfl, choice, others⟩
      exact ⟨j, choice, tail, others, rfl⟩

/-- Words make choices that can be arranged. -/
theorem isChoices_of_words {i : Nat} {words : List UInt32} {choices : List Nibble}
    (h : choicesOfWords? i words = some choices) : IsChoices i choices := by
  induction i generalizing words choices with
  | zero =>
    obtain ⟨-, rfl⟩ := choicesOfWords?_zero_eq_some_iff.1 h
    exact .nil
  | succ i ih =>
    obtain ⟨v, rest, j, tail, rfl, rfl, choice, others⟩ := choicesOfWords?_succ_eq_some_iff.1 h
    have below := choiceOfWord?_lt choice
    have shrinks : (BitVec.ofNat 4 j).toNat ≤ j := Nat.mod_le _ _
    exact .cons (by omega) (ih others)

/-- Any choices are made by the same number of sequences of words. -/
theorem ncard_choicesOfWords? {i : Nat} {choices : List Nibble} (h : IsChoices i choices)
    (lt : i < 16) :
    {words | choicesOfWords? i words = some choices}.ncard =
      ∏ k ∈ Finset.range i, 2 ^ leadingZeros (k + 2) := by
  induction h with
  | nil =>
    have none : {words | choicesOfWords? 0 words = some []} = {[]} :=
      Set.ext fun words => choicesOfWords?_zero_eq_some_iff.trans (and_iff_left rfl)
    rw [none, Set.ncard_singleton, Finset.prod_range_zero]
  | @cons i j rest le _ ih =>
    have first : {words | choicesOfWords? (i + 1) words = some (j :: rest)} =
        (fun p : UInt32 × List UInt32 => p.1 :: p.2) ''
          ({v | choiceOfWord? (i + 2) v = some j.toNat} ×ˢ
            {words | choicesOfWords? i words = some rest}) := by
      ext words
      constructor
      · intro h
        obtain ⟨v, words, k, tail, rfl, made, choice, others⟩ :=
          choicesOfWords?_succ_eq_some_iff.1 h
        obtain ⟨rfl, rfl⟩ := List.cons.inj made
        have below := choiceOfWord?_lt choice
        have value : (BitVec.ofNat 4 k).toNat = k := Nat.mod_eq_of_lt (by omega)
        exact ⟨(v, words), ⟨choice.trans (congrArg some value.symm), others⟩, rfl⟩
      · rintro ⟨⟨v, words⟩, ⟨choice, others⟩, rfl⟩
        refine choicesOfWords?_succ_eq_some_iff.2 ⟨v, words, _, rest, rfl, ?_, choice, others⟩
        rw [BitVec.ofNat_toNat, BitVec.setWidth_eq]
    have injective : Function.Injective fun p : UInt32 × List UInt32 => p.1 :: p.2 :=
      fun p q same => Prod.ext (List.cons.inj same).1 (List.cons.inj same).2
    rw [first, Set.ncard_image_of_injective _ injective, Set.ncard_prod,
      ncard_choiceOfWord? (by omega) (by simp only [UInt32.size]; omega) (by omega),
      ih (Nat.lt_of_succ_lt lt), Finset.prod_range_succ, Nat.mul_comm]

/-! ## Words of a draw -/

/-- From one position to another the stream holds the given words, which count in choices among
`i + 1`, `i`, …, two, and between them only words that do not count in the choice to be made. -/
inductive Reads (s : WordStream) : Nat → Nat → List UInt32 → Nat → Prop where
  /-- No choice is left to make. -/
  | done (pos : Nat) : Reads s 0 pos [] pos
  /-- The word does not count. -/
  | skip {i pos next : Nat} {words : List UInt32} :
      choiceOfWord? (i + 2) (s pos) = none → Reads s (i + 1) (pos + 1) words next →
        Reads s (i + 1) pos words next
  /-- The word makes the choice. -/
  | take {i pos next j : Nat} {words : List UInt32} :
      choiceOfWord? (i + 2) (s pos) = some j → Reads s i (pos + 1) words next →
        Reads s (i + 1) pos (s pos :: words) next

variable {s : WordStream} {i limit pos next : Nat}

theorem Reads.of_drawChoice? {mid j : Nat} {words : List UInt32}
    (first : drawChoice? s (i + 2) limit pos = some (j, mid)) (rest : Reads s i mid words next) :
    ∃ v, choiceOfWord? (i + 2) v = some j ∧ Reads s (i + 1) pos (v :: words) next := by
  induction limit generalizing pos with
  | zero => cases first
  | succ limit ih =>
    rw [drawChoice?] at first
    split at first
    · rename_i choice
      cases first
      exact ⟨s pos, choice, .take choice rest⟩
    · rename_i rejected
      obtain ⟨v, choice, reads⟩ := ih first
      exact ⟨v, choice, .skip rejected reads⟩

/-- What is drawn is made by words that the stream holds. -/
theorem exists_reads_of_drawChoices? {choices : List Nibble}
    (h : drawChoices? s limit i pos = some (choices, next)) :
    ∃ words, Reads s i pos words next ∧ choicesOfWords? i words = some choices := by
  induction i generalizing pos choices with
  | zero =>
    cases h
    exact ⟨[], .done _, rfl⟩
  | succ i ih =>
    obtain ⟨⟨j, mid⟩, first, h⟩ := Option.bind_eq_some_iff.1 h
    obtain ⟨⟨tail, last⟩, others, h⟩ := Option.bind_eq_some_iff.1 h
    cases h
    obtain ⟨words, reads, made⟩ := ih others
    obtain ⟨v, choice, reads⟩ := Reads.of_drawChoice? first reads
    exact ⟨v :: words, reads,
      choicesOfWords?_succ_eq_some_iff.2 ⟨_, _, _, _, rfl, rfl, choice, made⟩⟩

/-- A higher limit does not change what is drawn. -/
theorem drawChoice?_succ {n : Nat} {r : Nat × Nat} (h : drawChoice? s n limit pos = some r) :
    drawChoice? s n (limit + 1) pos = some r := by
  induction limit generalizing pos with
  | zero => cases h
  | succ limit ih =>
    rw [drawChoice?] at h ⊢
    split at h
    · exact h
    · exact ih h

theorem drawChoices?_succ {r : List Nibble × Nat} (h : drawChoices? s limit i pos = some r) :
    drawChoices? s (limit + 1) i pos = some r := by
  induction i generalizing pos r with
  | zero => exact h
  | succ i ih =>
    obtain ⟨⟨j, mid⟩, first, h⟩ := Option.bind_eq_some_iff.1 h
    obtain ⟨rest, others, h⟩ := Option.bind_eq_some_iff.1 h
    exact Option.bind_eq_some_iff.2 ⟨(j, mid), drawChoice?_succ first,
      Option.bind_eq_some_iff.2 ⟨rest, ih others, h⟩⟩

/-- Words that the stream holds are found within some limit. -/
theorem Reads.exists_drawChoices? {words : List UInt32} (reads : Reads s i pos words next)
    {choices : List Nibble} (made : choicesOfWords? i words = some choices) :
    ∃ limit, drawChoices? s limit i pos = some (choices, next) := by
  induction reads generalizing choices with
  | done pos =>
    obtain ⟨-, rfl⟩ := choicesOfWords?_zero_eq_some_iff.1 made
    exact ⟨0, rfl⟩
  | skip rejected _ ih =>
    obtain ⟨limit, h⟩ := ih made
    obtain ⟨⟨j, mid⟩, first, h⟩ := Option.bind_eq_some_iff.1 h
    obtain ⟨rest, others, h⟩ := Option.bind_eq_some_iff.1 h
    refine ⟨limit + 1, Option.bind_eq_some_iff.2 ⟨(j, mid), ?_,
      Option.bind_eq_some_iff.2 ⟨rest, drawChoices?_succ others, h⟩⟩⟩
    rw [drawChoice?, rejected]
    exact first
  | take choice _ ih =>
    obtain ⟨v, words, k, tail, same, rfl, choice', others⟩ :=
      choicesOfWords?_succ_eq_some_iff.1 made
    obtain ⟨rfl, rfl⟩ := List.cons.inj same
    obtain ⟨limit, h⟩ := ih others
    refine ⟨limit + 1, Option.bind_eq_some_iff.2 ⟨(k, _), ?_,
      Option.bind_eq_some_iff.2 ⟨_, drawChoices?_succ h, rfl⟩⟩⟩
    rw [drawChoice?, choice']

/-! ## Drawn shuffles -/

namespace NibbleShuffle

/-- The table that fifteen words make, if each of them counts: the numbers below sixteen,
exchanged as the words choose. -/
def tableOfWords? (words : List UInt32) : Option (Vector Byte 16) :=
  (choicesOfWords? 15 words).map fun choices => exchangeDown 15 choices inOrder

/-- A draw returns if the stream holds words that make a table, and gives the shuffle with that
table. -/
theorem exists_draw?_iff {σ : NibbleShuffle} :
    (∃ limit, draw? s limit pos = some (σ, next)) ↔
      ∃ words, Reads s 15 pos words next ∧ tableOfWords? words = some σ.bytes := by
  constructor
  · rintro ⟨limit, h⟩
    obtain ⟨⟨choices, last⟩, drawn, h⟩ := Option.bind_eq_some_iff.1 h
    cases h
    obtain ⟨words, reads, made⟩ := exists_reads_of_drawChoices? drawn
    exact ⟨words, reads, Option.map_eq_some_iff.2 ⟨choices, made, (bytes_arrange_identity _).symm⟩⟩
  · rintro ⟨words, reads, made⟩
    obtain ⟨choices, chosen, table⟩ := Option.map_eq_some_iff.1 made
    obtain rfl := bytes_injective ((bytes_arrange_identity choices).trans table)
    obtain ⟨limit, drawn⟩ := reads.exists_drawChoices? chosen
    exact ⟨limit, Option.bind_eq_some_iff.2 ⟨(choices, next), drawn, rfl⟩⟩

/-- Every permutation is made by the same number of sequences of words. -/
theorem ncard_tableOfWords? {table : Vector Byte 16} (h : IsPermutation table) :
    {words | tableOfWords? words = some table}.ncard = 2 ^ 427 := by
  obtain ⟨choices, isChoices, rfl⟩ := bijOn_exchangeDown.surjOn h
  have same : {words | tableOfWords? words = some (exchangeDown 15 choices inOrder)} =
      {words | choicesOfWords? 15 words = some choices} := by
    ext words
    constructor
    · intro h
      obtain ⟨other, made, table⟩ := Option.map_eq_some_iff.1 h
      exact made.trans
        (congrArg some (bijOn_exchangeDown.injOn (isChoices_of_words made) isChoices table))
    · intro made
      exact Option.map_eq_some_iff.2 ⟨choices, made, rfl⟩
  have bits : ∑ k ∈ Finset.range 15, leadingZeros (k + 2) = 427 := by decide +kernel
  rw [same, ncard_choicesOfWords? isChoices (by decide), Finset.prod_pow_eq_pow_sum, bits]

/-- Shuffles are drawn without bias.  A word makes a choice among `n` if the lower half of its
product with `n` does not exceed the rejection zone, and each choice is made by
`2 ^ leadingZeros n` words.  The choices of a draw stand for the `16!` permutations one to one.
So every permutation is made by the same number of sequences of fifteen words that count.

A draw returns if there are such words, and its forward table is the permutation that they make.
Inverting this table gives the inverse table, and as a plain table it is accepted and gives the
same shuffle. -/
theorem draws_unbiased :
    (∀ n, 0 < n → n < UInt32.size →
        (∀ v, choiceOfWord? n v =
          if v.toNat * n % UInt32.size ≤ (rejectionZone n).toNat then
            some (v.toNat * n / UInt32.size)
          else none) ∧
        ∀ j < n, {v | choiceOfWord? n v = some j}.ncard = 2 ^ leadingZeros n) ∧
      Set.BijOn (fun choices => exchangeDown 15 choices inOrder)
        {choices | IsChoices 15 choices} {table | IsPermutation table} ∧
      {table | IsPermutation table}.ncard = Nat.factorial 16 ∧
      (∀ table, IsPermutation table →
        {words | tableOfWords? words = some table}.ncard = 2 ^ 427) ∧
      ∀ (s : WordStream) (pos next : Nat) (σ : NibbleShuffle),
        ((∃ limit, draw? s limit pos = some (σ, next)) ↔
          ∃ words, Reads s 15 pos words next ∧ tableOfWords? words = some σ.bytes) ∧
        ∀ limit, draw? s limit pos = some (σ, next) →
          IsPermutation σ.bytes ∧ σ.forward.invert = σ.inverse ∧
            (∀ x, σ.inverse.lookup (σ.forward.lookup x) = x ∧
              σ.forward.lookup (σ.inverse.lookup x) = x) ∧
            ofTable σ.bytes = .ok σ :=
  ⟨fun _ pos lt => ⟨choiceOfWord?_eq_zone pos lt, fun _ => ncard_choiceOfWord? pos lt⟩,
    bijOn_exchangeDown, ncard_isPermutation, fun _ => ncard_tableOfWords?, fun _ _ _ σ =>
      ⟨exists_draw?_iff, fun _ _ => ⟨σ.isPermutation_bytes, σ.invert_forward,
        fun x => ⟨σ.inverse_forward x, σ.forward_inverse x⟩, σ.ofTable_bytes⟩⟩⟩

/-- The last choice among three, and a stream of zeros, which moves the entries of the table one
place down. -/
theorem draws_unbiased_zeros :
    {v | choiceOfWord? 3 v = some 2}.ncard = 2 ^ 30 ∧
      {words | tableOfWords? words = some inOrder}.ncard = 2 ^ 427 ∧
      ∃ σ, draw? (fun _ => 0) 1 0 = some (σ, 15) ∧
        σ.bytes = #v[1, 2, 3, 4, 5, 6, 7, 8, 9, 10, 11, 12, 13, 14, 15, 0] ∧
        ofTable σ.bytes = .ok σ := by
  obtain ⟨zone, -, -, tables, draws⟩ := draws_unbiased
  have drawn : (draw? (fun _ => 0) 1 0).map (fun r => (r.1.bytes, r.2)) =
      some (#v[1, 2, 3, 4, 5, 6, 7, 8, 9, 10, 11, 12, 13, 14, 15, 0], 15) := by decide +kernel
  obtain ⟨⟨σ, next⟩, draw, same⟩ := Option.map_eq_some_iff.1 drawn
  obtain ⟨table, rfl⟩ := Prod.mk.inj same
  obtain ⟨-, -, -, accepted⟩ := (draws (fun _ => 0) 0 15 σ).2 1 draw
  exact ⟨(zone 3 (by decide) (by decide)).2 2 (by decide), tables inOrder (by decide), σ, draw,
    table, accepted⟩

end NibbleShuffle

end WhiteBox
