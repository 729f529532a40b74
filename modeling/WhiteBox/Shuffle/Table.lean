import WhiteBox.Shuffle

/-!
# Shuffles from plain tables

Sixteen bytes are the forward table of a shuffle if they are the nibbles in some order.
`NibbleShuffle.ofTable` reads them one after the other and refuses the table at the first byte
that is no nibble or was met before.

A `TableScan` is what is known after some bytes: the nibbles that were met, as the bits of a
word, and for each of them where it was met.  A table that is read to its end has met every
nibble, so the places are its inverse table.

The word with one bit set is a shift, and a shift by sixteen or more is not defined.
`TableScan.readM` asks for the shift in an arbitrary monad; `TableScan.ofTable` is the case of
a plain function and `TableScan.traced` also lists the amounts that were shifted by.
-/

namespace WhiteBox

/-- What is known of a table after some of its bytes. -/
structure TableScan where
  /-- Bit `y` says whether the nibble `y` was met. -/
  seen : BitVec 16
  /-- Entry `y` is the place where `y` was met. -/
  places : NibbleTable

namespace TableScan

/-- Nothing was met. -/
def start : TableScan := ⟨0, Vector.replicate 16 0⟩

/-- The word in which only the bit with the given number is set. -/
def bit (y : Byte) : BitVec 16 := 1#16 <<< y.toNat

/-- The same; the byte is logged. -/
def loggedBit (y : Byte) : StateM (List Byte) (BitVec 16) := do
  modify (· ++ [y])
  pure (bit y)

/-- The byte `y`, whose bit is `mask`, was met at place `x`, too. -/
def add (scan : TableScan) (x : Fin 16) (y : Byte) (mask : BitVec 16) (h : y < 16) : TableScan :=
  ⟨scan.seen ||| mask, scan.places.set y.toNat (BitVec.ofFin x) h⟩

/-- Reads the byte `y` at place `x`. -/
def readM {m : Type → Type} [Monad m] (shift : Byte → m (BitVec 16)) (scan : TableScan)
    (x : Fin 16) (y : Byte) : ExceptT BuildError m TableScan :=
  if h : y < 16 then do
    let tested ← ExceptT.lift (shift y)
    if scan.seen &&& tested = 0 then
      let added ← ExceptT.lift (shift y)
      pure (scan.add x y added h)
    else throw .notAPermutation
  else throw .notAPermutation

/-- Reads the bytes of a table at the given places, one after the other. -/
def readAllM {m : Type → Type} [Monad m] (shift : Byte → m (BitVec 16)) (table : Vector Byte 16)
    (xs : List (Fin 16)) (scan : TableScan) : ExceptT BuildError m TableScan :=
  xs.foldlM (fun scan x => scan.readM shift x (table.get x)) scan

/-- Reads bytes with plain shifts. -/
def readAll (table : Vector Byte 16) (xs : List (Fin 16)) (scan : TableScan) :
    Except BuildError TableScan :=
  Id.run (readAllM (fun y => pure (bit y)) table xs scan).run

/-- What is known of a table after all of its bytes. -/
def ofTable (table : Vector Byte 16) : Except BuildError TableScan :=
  readAll table (List.finRange 16) start

/-- The same, and the amounts that were shifted by, in order. -/
def traced (table : Vector Byte 16) : Except BuildError TableScan × List Byte :=
  Id.run ((readAllM loggedBit table (List.finRange 16) start).run.run [])

/-! ## What is known -/

variable {table : Vector Byte 16} {xs : List (Fin 16)} {scan : TableScan} {x : Fin 16}

/-- The bytes at the places are nibbles, none of which comes twice. -/
structure Fine (table : Vector Byte 16) (xs : List (Fin 16)) : Prop where
  /-- They are nibbles. -/
  small : ∀ x ∈ xs, table.get x < 16
  /-- They are distinct. -/
  distinct : (xs.map table.get).Nodup

theorem Fine.left {ys : List (Fin 16)} (fine : Fine table (xs ++ ys)) : Fine table xs where
  small p mem := fine.small p (List.mem_append_left _ mem)
  distinct := fine.distinct.sublist ((List.sublist_append_left _ _).map _)

/-- The bytes at the places were met, and nothing else was. -/
structure Knows (table : Vector Byte 16) (xs : List (Fin 16)) (scan : TableScan) : Prop where
  /-- The bits that are set are those of nibbles that were met. -/
  seen : ∀ y < 16, scan.seen.getLsbD y.toNat = true ↔ ∃ x ∈ xs, table.get x = y
  /-- A nibble that was met is found where it was met. -/
  places : ∀ x ∈ xs, scan.places.lookup (Byte.low (table.get x)) = BitVec.ofFin x

theorem knows_start (table : Vector Byte 16) : Knows table [] start where
  seen y _ := by simp [start]
  places x h := absurd h List.not_mem_nil

theorem getLsbD_bit {y : Byte} (h : y < 16) (i : Nat) :
    (bit y).getLsbD i = decide (y.toNat = i) := by
  have small : y.toNat < 16 := h
  rw [bit, ← BitVec.twoPow_eq, BitVec.getLsbD_twoPow, decide_eq_true small, Bool.true_and]

theorem and_bit_eq_zero {seen : BitVec 16} {y : Byte} (h : y < 16) :
    seen &&& bit y = 0 ↔ seen.getLsbD y.toNat = false := by
  constructor
  · intro zero
    have unset := congrArg (fun w => w.getLsbD y.toNat) zero
    simpa [getLsbD_bit h] using unset
  · intro unset
    rw [bit, ← BitVec.twoPow_eq, BitVec.and_twoPow, unset]
    rfl

theorem lookup_set (t : NibbleTable) {y z : Byte} (hy : y < 16) (hz : z < 16) (v : Nibble) :
    NibbleTable.lookup (t.set y.toNat v hy) (Byte.low z) =
      if y = z then v else t.lookup (Byte.low z) := by
  have low : ∀ z : Byte, z < 16 → (Byte.low z).toNat = z.toNat := by decide +kernel
  simp only [NibbleTable.lookup, Vector.getElem_set, low z hz, BitVec.toNat_inj]

/-- One more byte is fine if it is a nibble unlike those before it. -/
theorem fine_concat_iff : Fine table (xs ++ [x]) ↔
    Fine table xs ∧ table.get x < 16 ∧ ∀ p ∈ xs, table.get p ≠ table.get x := by
  have distinct : ((xs ++ [x]).map table.get).Nodup ↔
      (xs.map table.get).Nodup ∧ ∀ p ∈ xs, table.get p ≠ table.get x := by
    simp [List.nodup_append]
  constructor
  · intro fine
    exact ⟨fine.left, fine.small x (List.mem_append_right _ List.mem_cons_self),
      (distinct.1 fine.distinct).2⟩
  · rintro ⟨⟨small, nodup⟩, last, new⟩
    refine ⟨fun p mem => ?_, distinct.2 ⟨nodup, new⟩⟩
    obtain before | here := List.mem_append.1 mem
    · exact small p before
    · exact List.mem_singleton.1 here ▸ last

/-- The bit of a nibble is not set if it is unlike those that were met. -/
theorem Knows.unset_iff (known : Knows table xs scan) (small : table.get x < 16) :
    scan.seen.getLsbD (table.get x).toNat = false ↔ ∀ p ∈ xs, table.get p ≠ table.get x := by
  rw [← Bool.not_eq_true, known.seen _ small]
  exact ⟨fun h p mem same => h ⟨p, mem, same⟩, fun h ⟨p, mem, same⟩ => h p mem same⟩

/-- One more byte that is fine is known as those before it are. -/
theorem Knows.concat (known : Knows table xs scan) (fine : Fine table xs)
    (small : table.get x < 16) (new : ∀ p ∈ xs, table.get p ≠ table.get x) :
    Knows table (xs ++ [x]) (scan.add x (table.get x) (bit (table.get x)) small) where
  seen y h := by
    have same : (table.get x).toNat = y.toNat ↔ table.get x = y := BitVec.toNat_inj
    simp only [add, BitVec.getLsbD_or, getLsbD_bit small, Bool.or_eq_true, known.seen y h,
      decide_eq_true_eq, same, List.mem_append, List.mem_singleton, or_and_right, exists_or,
      exists_eq_left]
  places p mem := by
    show NibbleTable.lookup (scan.places.set _ _ small) _ = _
    obtain before | here := List.mem_append.1 mem
    · rw [lookup_set _ small (fine.small p before), if_neg (new p before).symm]
      exact known.places p before
    · obtain rfl := List.mem_singleton.1 here
      rw [lookup_set _ small small, if_pos rfl]

/-! ## Reading -/

/-- With plain shifts a byte is added if its bit is not set. -/
theorem readM_pure {y : Byte} (h : y < 16) (scan : TableScan) (x : Fin 16) :
    scan.readM (m := Id) (fun y => pure (bit y)) x y =
      if scan.seen &&& bit y = 0 then pure (scan.add x y (bit y) h)
      else throw .notAPermutation := by
  rw [readM, dif_pos h]
  rfl

/-- Reading stops at a byte that does not fit. -/
theorem readAll_cons (table : Vector Byte 16) (x : Fin 16) (xs : List (Fin 16))
    (scan : TableScan) :
    readAll table (x :: xs) scan =
      if h : table.get x < 16 ∧ scan.seen.getLsbD (table.get x).toNat = false then
        readAll table xs (scan.add x (table.get x) (bit (table.get x)) h.1)
      else .error .notAPermutation := by
  rw [readAll, readAllM, List.foldlM_cons]
  by_cases small : table.get x < 16
  · rw [readM_pure small]
    by_cases unset : scan.seen.getLsbD (table.get x).toNat = false
    · rw [if_pos ((and_bit_eq_zero small).2 unset), dif_pos ⟨small, unset⟩]
      rfl
    · rw [if_neg fun zero => unset ((and_bit_eq_zero small).1 zero), dif_neg fun h => unset h.2]
      rfl
  · rw [readM, dif_neg small, dif_neg fun h => small h.1]
    rfl

/-- The bytes at some places are read to the end, or reading stops at one that does not fit. -/
theorem readAll_eq (xs : List (Fin 16)) {before : List (Fin 16)} (fine : Fine table before)
    (known : Knows table before scan) :
    (Fine table (before ++ xs) ∧
        ∃ last, readAll table xs scan = .ok last ∧ Knows table (before ++ xs) last) ∨
      (¬ Fine table (before ++ xs) ∧ readAll table xs scan = .error .notAPermutation) := by
  induction xs generalizing before scan with
  | nil =>
    rw [List.append_nil]
    exact .inl ⟨fine, scan, rfl, known⟩
  | cons x xs ih =>
    rw [List.append_cons, readAll_cons]
    by_cases fits : table.get x < 16 ∧ scan.seen.getLsbD (table.get x).toNat = false
    · rw [dif_pos fits]
      have new := (known.unset_iff fits.1).1 fits.2
      exact ih (fine_concat_iff.2 ⟨fine, fits.1, new⟩) (known.concat fine fits.1 new)
    · rw [dif_neg fits]
      refine .inr ⟨fun all => fits ?_, rfl⟩
      obtain ⟨-, small, new⟩ := fine_concat_iff.1 all.left
      exact ⟨small, (known.unset_iff small).2 new⟩

/-- A table is read to its end exactly if its bytes are distinct nibbles. -/
theorem ofTable_eq (table : Vector Byte 16) :
    (Fine table (List.finRange 16) ∧
        ∃ scan, ofTable table = .ok scan ∧ Knows table (List.finRange 16) scan) ∨
      (¬ Fine table (List.finRange 16) ∧ ofTable table = .error .notAPermutation) := by
  have none : Fine table [] := ⟨nofun, .nil⟩
  exact readAll_eq (List.finRange 16) none (knows_start table)

/-- The places are the inverse of the table. -/
theorem lookup_places (h : ofTable table = .ok scan) (x : Nibble) :
    scan.places.lookup (NibbleTable.lookup (table.map Byte.low) x) = x := by
  obtain ⟨-, last, read, known⟩ | ⟨-, refused⟩ := ofTable_eq table
  · cases h.symm.trans read
    have entry : NibbleTable.lookup (table.map Byte.low) x = Byte.low (table.get x.toFin) :=
      Vector.getElem_map _ _
    rw [entry, known.places _ (List.mem_finRange _)]
  · cases h.symm.trans refused

end TableScan

/-! ## The shuffle of a table -/

namespace NibbleShuffle

/-- Takes sixteen bytes as a forward table; they have to be the nibbles in some order. -/
def ofTable (table : Vector Byte 16) : Except BuildError NibbleShuffle :=
  match h : TableScan.ofTable table with
  | .ok scan =>
    have inverse_forward := TableScan.lookup_places h
    .ok ⟨table.map Byte.low, scan.places, inverse_forward,
      NibbleTable.lookup_of_inverse inverse_forward⟩
  | .error cause => .error cause

/-- A table is taken exactly if its bytes are distinct nibbles. -/
theorem ofTable_eq (table : Vector Byte 16) :
    (TableScan.Fine table (List.finRange 16) ∧
        ∃ s, ofTable table = .ok s ∧ s.forward = table.map Byte.low) ∨
      (¬ TableScan.Fine table (List.finRange 16) ∧
        ofTable table = .error .notAPermutation) := by
  rw [ofTable]
  obtain ⟨fine, scan, read, -⟩ | ⟨unfit, refused⟩ := TableScan.ofTable_eq table
  · left
    split
    · exact ⟨fine, _, rfl, rfl⟩
    · rename_i h
      cases h.symm.trans read
  · right
    split
    · rename_i h
      cases h.symm.trans refused
    · rename_i h
      cases h.symm.trans refused
      exact ⟨unfit, rfl⟩

end NibbleShuffle

end WhiteBox
