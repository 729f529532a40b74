import Mathlib.Data.BitVec
import Mathlib.Data.FinEnum
import Mathlib.Data.Set.Card
import Mathlib.Data.Finite.Perm
import WhiteBox.Proofs.Shuffle
import WhiteBox.Shuffle.Draw

/-!
# Choices and permutations

`NibbleShuffle.arrange` exchanges entry `i` with the entry that the first choice names, entry
`i - 1` with the one that the second names, and so on down to entry one.  No choice exceeds the
entry that it moves (`IsChoices`), so an entry that has been moved stays where it is
(`NibbleShuffle.encode_arrange_above`).

Hence an arrangement can be read backwards.  If it is to end as a given shuffle then entry `i`
has to be fetched from where that shuffle's entry `i` stands now, which leaves one choice and
the entries below to the others.  By induction exactly one list of choices leads from one
shuffle to another that has the same entries above `i` (`NibbleShuffle.existsUnique_choices`).

The shuffles are the permutations of the nibbles, and their tables are the sixteen numbers
below sixteen in any order (`NibbleShuffle.isPermutation_iff`).  There are `16!` of them
(`NibbleShuffle.ncard_isPermutation`).  On tables the exchanges are plain ones
(`NibbleShuffle.bytes_arrange`), so choices for fifteen entries stand for these permutations one
to one (`NibbleShuffle.bijOn_exchangeDown`).
-/

namespace WhiteBox

/-- Choices for entries `i`, `i - 1`, …, one, each at or below the entry that it is for. -/
inductive IsChoices : Nat → List Nibble → Prop where
  /-- Entry zero is left. -/
  | nil : IsChoices 0 []
  /-- A choice for the topmost entry, and choices for those below. -/
  | cons {i : Nat} {j : Nibble} {rest : List Nibble} :
      j.toNat ≤ i + 1 → IsChoices i rest → IsChoices (i + 1) (j :: rest)

theorem Nibble.toNat_lt_sixteen (x : Nibble) : x.toNat < 16 := x.isLt

namespace NibbleShuffle

/-! ## Exchanges -/

theorem exchange_left (i j : Nibble) : exchange i j i = j := if_pos rfl

theorem exchange_of_ne {i j x : Nibble} (hi : x ≠ i) (hj : x ≠ j) : exchange i j x = x := by
  rw [exchange, if_neg hi, if_neg hj]

theorem encode_swap (s : NibbleShuffle) (i j x : Nibble) :
    (s.swap i j).encode x = s.encode (exchange i j x) :=
  NibbleTable.lookup_tabulate (fun x => s.encode (exchange i j x)) x

theorem ext_encode {s t : NibbleShuffle} (h : ∀ x, s.encode x = t.encode x) : s = t :=
  ext_forward (NibbleTable.ext h)

/-- The choices leave the entries above alone. -/
theorem encode_arrange_above {i : Nat} {choices : List Nibble} (h : IsChoices i choices)
    (s : NibbleShuffle) {x : Nibble} (above : i < x.toNat) :
    (arrange i choices s).encode x = s.encode x := by
  induction h generalizing s with
  | nil => rfl
  | @cons i j rest le _ ih =>
    have top : x ≠ BitVec.ofNat 4 (i + 1) := by
      rintro rfl
      exact absurd above (Nat.not_lt.2 (Nat.mod_le _ _))
    have chosen : x ≠ j := by
      rintro rfl
      exact absurd above (Nat.not_lt.2 le)
    rw [arrange, ih _ (Nat.lt_of_succ_lt above), encode_swap, exchange_of_ne top chosen]

/-- Two shuffles with the same entries but for entry zero are equal. -/
theorem eq_of_agree {s t : NibbleShuffle} (agree : ∀ x, 0 < x.toNat → s.encode x = t.encode x) :
    s = t := by
  -- Where `t` has entry zero of `s` there is no entry above zero, as `s` has that one elsewhere.
  have zero : t.decode (s.encode 0) = 0 := by
    by_contra nonzero
    have pos : 0 < (t.decode (s.encode 0)).toNat :=
      Nat.pos_of_ne_zero fun e => nonzero (BitVec.eq_of_toNat_eq e)
    have same := agree _ pos
    rw [encode_decode] at same
    exact nonzero (s.encode_injective same)
  refine ext_encode fun x => ?_
  by_cases h : x = 0
  · rw [h, ← t.encode_decode (s.encode 0), zero]
  · exact agree x (Nat.pos_of_ne_zero fun e => h (BitVec.eq_of_toNat_eq e))

/-- What one of two shuffles with the same entries above `i` has at or below `i`, the other has
there too. -/
theorem decode_encode_le {i : Nat} {s t : NibbleShuffle}
    (agree : ∀ x, i < x.toNat → s.encode x = t.encode x) {x : Nibble} (le : x.toNat ≤ i) :
    (s.decode (t.encode x)).toNat ≤ i := by
  by_contra above
  have same := agree _ (Nat.lt_of_not_le above)
  rw [encode_decode] at same
  rw [← t.encode_injective same] at above
  exact above le

/-- Exchanging the topmost entry on which two shuffles may differ leaves one entry less. -/
theorem encode_swap_agree {i : Nat} (lt : i + 1 < 16) {s t : NibbleShuffle} {j : Nibble}
    (agree : ∀ x, i + 1 < x.toNat → s.encode x = t.encode x) (le : j.toNat ≤ i + 1)
    (fetched : s.encode j = t.encode (BitVec.ofNat 4 (i + 1))) (x : Nibble) (above : i < x.toNat) :
    (s.swap (BitVec.ofNat 4 (i + 1)) j).encode x = t.encode x := by
  rw [encode_swap]
  by_cases top : x = BitVec.ofNat 4 (i + 1)
  · rw [top, exchange_left, fetched]
  · have far : i + 1 < x.toNat := by
      refine Nat.lt_of_le_of_ne above fun same => top (BitVec.eq_of_toNat_eq ?_)
      rw [← same]
      exact (Nat.mod_eq_of_lt lt).symm
    have chosen : x ≠ j := by
      rintro rfl
      exact absurd far (Nat.not_lt.2 le)
    rw [exchange_of_ne top chosen, agree x far]

/-- Later choices leave the topmost entry alone, so it shows what was chosen for it. -/
theorem encode_arrange_top {i : Nat} (lt : i + 1 < 16) {rest : List Nibble} (h : IsChoices i rest)
    (s : NibbleShuffle) (j : Nibble) :
    (arrange (i + 1) (j :: rest) s).encode (BitVec.ofNat 4 (i + 1)) = s.encode j := by
  have above : i < (BitVec.ofNat 4 (i + 1)).toNat := by
    rw [BitVec.toNat_ofNat, Nat.mod_eq_of_lt lt]
    exact Nat.lt_succ_self i
  rw [arrange, encode_arrange_above h _ above, encode_swap, exchange_left]

/-- One list of choices leads from a shuffle to any other with the same entries above. -/
theorem existsUnique_choices {i : Nat} (lt : i < 16) (s t : NibbleShuffle)
    (agree : ∀ x, i < x.toNat → s.encode x = t.encode x) :
    ∃! choices, IsChoices i choices ∧ arrange i choices s = t := by
  induction i generalizing s with
  | zero =>
    obtain rfl := eq_of_agree agree
    refine ⟨[], ⟨.nil, rfl⟩, fun choices h => ?_⟩
    cases h.1
    rfl
  | succ i ih =>
    -- The entry that has to come to the top.
    let j : Nibble := s.decode (t.encode (BitVec.ofNat 4 (i + 1)))
    have fetched : s.encode j = t.encode (BitVec.ofNat 4 (i + 1)) := s.encode_decode _
    have le : j.toNat ≤ i + 1 := decode_encode_le agree (Nat.mod_le _ _)
    obtain ⟨rest, ⟨isRest, arranged⟩, unique⟩ :=
      ih (Nat.lt_of_succ_lt lt) _ (encode_swap_agree lt agree le fetched)
    refine ⟨j :: rest, ⟨.cons le isRest, arranged⟩, ?_⟩
    rintro _ ⟨@⟨⟩ | @⟨_, k, others, _, isOthers⟩, reached⟩
    have same : s.encode j = s.encode k := by
      rw [fetched, ← reached, encode_arrange_top lt isOthers]
    obtain rfl : j = k := s.encode_injective same
    rw [unique others ⟨isOthers, reached⟩]

/-- Every shuffle is arranged from the identity by exactly one list of choices. -/
theorem existsUnique_arrange (t : NibbleShuffle) :
    ∃! choices, IsChoices 15 choices ∧ arrange 15 choices identity = t :=
  existsUnique_choices (by decide) identity t fun x above =>
    absurd above (Nat.not_lt.2 (Nat.le_of_lt_succ x.isLt))

/-! ## Shuffles as permutations -/

/-- The shuffle that moves each nibble as a permutation does. -/
def ofPerm (e : Equiv.Perm Nibble) : NibbleShuffle where
  forward := .tabulate e
  inverse := .tabulate e.symm
  inverse_forward := by simp
  forward_inverse := by simp

theorem encode_ofPerm (e : Equiv.Perm Nibble) (x : Nibble) : (ofPerm e).encode x = e x := by
  rw [encode, ofPerm, NibbleTable.lookup_tabulate]

/-- What a shuffle does, as a permutation. -/
def toPerm (s : NibbleShuffle) : Equiv.Perm Nibble :=
  ⟨s.encode, s.decode, s.decode_encode, s.encode_decode⟩

theorem toPerm_apply (s : NibbleShuffle) (x : Nibble) : s.toPerm x = s.encode x := rfl

/-- Shuffles are the permutations of the nibbles. -/
def equivPerm : NibbleShuffle ≃ Equiv.Perm Nibble where
  toFun := toPerm
  invFun := ofPerm
  left_inv s := ext_encode fun x => by rw [encode_ofPerm, toPerm_apply]
  right_inv e := Equiv.ext fun x => by rw [toPerm_apply, encode_ofPerm]

theorem card_eq : Nat.card NibbleShuffle = Nat.factorial 16 := by
  rw [Nat.card_congr equivPerm, Nat.card_perm, Nat.card_congr BitVec.equivFin.toEquiv, Nat.card_fin]
  exact congrArg Nat.factorial (by decide)

theorem bytes_injective : Function.Injective bytes := by
  intro s t same
  apply ext_forward
  rw [← map_low_bytes, same, map_low_bytes]

/-- A table without repetition is the forward table of a shuffle. -/
theorem exists_forward_eq {t : NibbleTable} (distinct : Function.Injective (NibbleTable.lookup t)) :
    ∃ s : NibbleShuffle, s.forward = t := by
  let e : Equiv.Perm Nibble := .ofBijective _ (Finite.injective_iff_bijective.1 distinct)
  exact ⟨ofPerm e, NibbleTable.ext (encode_ofPerm e)⟩

theorem lt_of_isPermutation {table : Vector Byte 16} (h : IsPermutation table) (i : Nat)
    (hi : i < 16) : table[i] < 16 := by
  have below : ∀ b ∈ (List.range 16).map (BitVec.ofNat 8), b < 16 := by decide
  exact below _ (h.mem_iff.1 (Vector.mem_toList_iff.2 (Vector.getElem_mem hi)))

theorem lookup_injective_of_isPermutation {table : Vector Byte 16} (h : IsPermutation table) :
    Function.Injective (NibbleTable.lookup (table.map Byte.low)) := by
  intro x y same
  have hx := x.toNat_lt_sixteen
  have hy := y.toNat_lt_sixteen
  have nodup : table.toList.Nodup := h.nodup_iff.2 (by decide)
  simp only [NibbleTable.lookup, Vector.getElem_map] at same
  have bytes : table[x.toNat] = table[y.toNat] := by
    rw [← Byte.ofNibble_low_of_lt (lt_of_isPermutation h _ hx), same,
      Byte.ofNibble_low_of_lt (lt_of_isPermutation h _ hy)]
  rw [← Vector.getElem_toList (by simpa using hx), ← Vector.getElem_toList (by simpa using hy),
    nodup.getElem_inj_iff] at bytes
  exact BitVec.eq_of_toNat_eq bytes

/-- The tables of the shuffles are the permutations. -/
theorem isPermutation_iff {table : Vector Byte 16} :
    IsPermutation table ↔ ∃ s : NibbleShuffle, s.bytes = table := by
  constructor
  · intro h
    obtain ⟨s, forward⟩ := exists_forward_eq (lookup_injective_of_isPermutation h)
    refine ⟨s, Vector.ext fun i hi => ?_⟩
    rw [bytes, forward, Vector.getElem_map, Vector.getElem_map,
      Byte.ofNibble_low_of_lt (lt_of_isPermutation h i hi)]
  · rintro ⟨s, rfl⟩
    exact s.isPermutation_bytes

theorem ncard_isPermutation :
    {table | IsPermutation table}.ncard = Nat.factorial 16 := by
  have tables : {table | IsPermutation table} = Set.range bytes :=
    Set.ext fun table => isPermutation_iff
  rw [tables, ← Nat.card_coe_set_eq, Nat.card_range_of_injective bytes_injective, card_eq]

/-! ## Exchanges in a plain table -/

/-- The numbers below sixteen in order. -/
def inOrder : Vector Byte 16 := Vector.ofFn fun i => BitVec.ofNat 8 i

/-- Exchanges entry `i` of a plain table with the entry that the first choice names, entry
`i - 1` with the one that the second names, and so on. -/
def exchangeDown : Nat → List Nibble → Vector Byte 16 → Vector Byte 16
  | i + 1, j :: rest, table =>
    exchangeDown i rest
      (if h : i + 1 < 16 then table.swap (i + 1) j.toNat h j.toNat_lt_sixteen else table)
  | _, _, table => table

theorem getElem_bytes (s : NibbleShuffle) (i : Nat) (hi : i < 16) :
    s.bytes[i] = Byte.ofNibble (s.encode (BitVec.ofNat 4 i)) := by
  simp only [bytes, Vector.getElem_map, encode, NibbleTable.lookup, BitVec.toNat_ofNat,
    Nat.mod_eq_of_lt hi]

theorem bytes_identity : identity.bytes = inOrder := by
  have encode_identity (x : Nibble) : identity.encode x = x := NibbleTable.lookup_tabulate id x
  refine Vector.ext fun i hi => ?_
  rw [getElem_bytes, encode_identity, inOrder, Vector.getElem_ofFn]
  refine BitVec.eq_of_toNat_eq ?_
  simp [Byte.ofNibble, Nat.mod_eq_of_lt hi]

theorem bytes_swap (s : NibbleShuffle) (i : Nat) (hi : i < 16) (j : Nibble) :
    (s.swap (BitVec.ofNat 4 i) j).bytes = s.bytes.swap i j.toNat hi j.toNat_lt_sixteen := by
  refine Vector.ext fun k hk => ?_
  have same (x : Nibble) : BitVec.ofNat 4 k = x ↔ k = x.toNat := by
    rw [← BitVec.toNat_inj, BitVec.toNat_ofNat, Nat.mod_eq_of_lt hk]
  rw [getElem_bytes, encode_swap, exchange, Vector.getElem_swap, getElem_bytes, getElem_bytes,
    getElem_bytes]
  simp only [same, BitVec.toNat_ofNat, Nat.mod_eq_of_lt hi, BitVec.ofNat_toNat, BitVec.setWidth_eq]
  split
  · rfl
  · split
    · rfl
    · rfl

/-- Arranging a shuffle exchanges the entries of its table. -/
theorem bytes_arrange {i : Nat} (lt : i < 16) (choices : List Nibble) (s : NibbleShuffle) :
    (arrange i choices s).bytes = exchangeDown i choices s.bytes := by
  induction i generalizing choices s with
  | zero => rw [arrange, exchangeDown] <;> simp
  | succ i ih =>
    cases choices with
    | nil => rw [arrange, exchangeDown] <;> simp
    | cons j rest =>
      rw [arrange, exchangeDown, ih (Nat.lt_of_succ_lt lt), bytes_swap s (i + 1) lt, dif_pos lt]

theorem bytes_arrange_identity (choices : List Nibble) :
    (arrange 15 choices identity).bytes = exchangeDown 15 choices inOrder := by
  rw [bytes_arrange (by decide), bytes_identity]

/-- Choices stand for permutations one to one. -/
theorem bijOn_exchangeDown :
    Set.BijOn (fun choices => exchangeDown 15 choices inOrder)
      {choices | IsChoices 15 choices} {table | IsPermutation table} := by
  simp only [← bytes_arrange_identity]
  refine ⟨fun choices _ => isPermutation_bytes _, fun a ha b hb same => ?_, fun table h => ?_⟩
  · exact (existsUnique_arrange _).unique ⟨ha, rfl⟩ ⟨hb, (bytes_injective same).symm⟩
  · obtain ⟨s, rfl⟩ := isPermutation_iff.1 h
    obtain ⟨choices, ⟨isChoices, rfl⟩, -⟩ := existsUnique_arrange s
    exact ⟨choices, isChoices, rfl⟩

end NibbleShuffle

end WhiteBox
