import WhiteBox.Proofs.Encoding.Lawful
import WhiteBox.Proofs.Log
import WhiteBox.Proofs.Shuffle

/-!
# Which tables make a shuffle

A table of sixteen bytes makes a shuffle exactly if its bytes are distinct and below sixteen
(`TableScan.fine_iff`); any other table is refused.  Reading never shifts by more than fifteen:
a byte above that ends it before the shift (`TableScan.logs_readAll`).

What an accepted table becomes is determined by the table: its entries are the forward table,
and the place of each nibble in it is the inverse table (`NibbleShuffle.ofTable_takes`).
-/

namespace WhiteBox

namespace TableScan

/-! ## What is shifted by -/

theorem logs_loggedBit (y : Byte) :
    Logs (ExceptT.lift (loggedBit y) : ExceptT BuildError _ _) (.ok (bit y)) [y] :=
  fun _ => rfl

theorem logs_throw (cause : BuildError) :
    Logs (throw cause : ExceptT BuildError (StateM (List Byte)) TableScan) (.error cause) [] := by
  intro log
  rw [List.append_nil]
  rfl

variable {scan : TableScan} {x : Fin 16} {y : Byte}

/-- A nibble is shifted by once to be tested, and once more to be added. -/
theorem logs_readM_of_unset (small : y < 16) (unset : scan.seen.getLsbD y.toNat = false) :
    Logs (scan.readM loggedBit x y) (.ok (scan.add x y (bit y) small)) [y, y] := by
  rw [readM, dif_pos small]
  show Logs _ _ ([y] ++ [y])
  refine (logs_loggedBit y).bind ?_
  rw [if_pos ((and_bit_eq_zero small).2 unset)]
  exact (logs_loggedBit y).bind_pure _

theorem logs_readM_of_set (small : y < 16) (set : ¬ scan.seen.getLsbD y.toNat = false) :
    Logs (scan.readM loggedBit x y) (.error .notAPermutation) [y] := by
  rw [readM, dif_pos small]
  show Logs _ _ ([y] ++ [])
  refine (logs_loggedBit y).bind ?_
  rw [if_neg fun zero => set ((and_bit_eq_zero small).1 zero)]
  exact logs_throw _

/-- Nothing is shifted by a byte that is no nibble. -/
theorem logs_readM_of_large (large : ¬ y < 16) :
    Logs (scan.readM loggedBit x y) (.error .notAPermutation) [] := by
  rw [readM, dif_neg large]
  exact logs_throw _

/-- Reading with a log ends as reading without it, and logs bytes below sixteen only. -/
theorem logs_readAll (table : Vector Byte 16) (xs : List (Fin 16)) (scan : TableScan) :
    ∃ asked, Logs (readAllM loggedBit table xs scan) (readAll table xs scan) asked ∧
      ∀ y ∈ asked, y < 16 := by
  induction xs generalizing scan with
  | nil => exact ⟨[], .pure scan, nofun⟩
  | cons x xs ih =>
    rw [readAll_cons, readAllM, List.foldlM_cons]
    by_cases small : table.get x < 16
    · by_cases unset : scan.seen.getLsbD (table.get x).toNat = false
      · rw [dif_pos ⟨small, unset⟩]
        obtain ⟨asked, logs, below⟩ := ih (scan.add x (table.get x) (bit (table.get x)) small)
        refine ⟨_, (logs_readM_of_unset small unset).bind logs, fun y mem => ?_⟩
        obtain here | later := List.mem_append.1 mem
        · have twice : y ∈ List.replicate 2 (table.get x) := here
          obtain ⟨-, rfl⟩ := List.mem_replicate.1 twice
          exact small
        · exact below y later
      · rw [dif_neg fun h => unset h.2]
        exact ⟨_, (logs_readM_of_set small unset).bind_error, List.forall_mem_singleton.2 small⟩
    · rw [dif_neg fun h => small h.1]
      exact ⟨_, (logs_readM_of_large small).bind_error, nofun⟩

theorem traced_eq (table : Vector Byte 16) :
    (traced table).1 = ofTable table ∧ ∀ y ∈ (traced table).2, y < 16 := by
  obtain ⟨asked, logs, below⟩ := logs_readAll table (List.finRange 16) start
  rw [traced, logs []]
  exact ⟨rfl, below⟩

/-! ## Tables that are read to their end -/

theorem map_get_finRange (table : Vector Byte 16) :
    (List.finRange 16).map table.get = table.toList := by
  refine List.ext_getElem (by simp) fun i _ _ => ?_
  rw [List.getElem_map, List.getElem_finRange, Vector.getElem_toList]
  rfl

/-- The bytes of a table are fine if they are distinct and below sixteen. -/
theorem fine_iff {table : Vector Byte 16} :
    Fine table (List.finRange 16) ↔ table.toList.Nodup ∧ ∀ b ∈ table.toList, b < 16 := by
  rw [← map_get_finRange, List.forall_mem_map]
  exact ⟨fun fine => ⟨fine.distinct, fine.small⟩, fun h => ⟨h.2, h.1⟩⟩

end TableScan

namespace NibbleShuffle

variable {table : Vector Byte 16} {s : NibbleShuffle}

theorem exists_ofTable_iff :
    (∃ s, ofTable table = .ok s) ↔ table.toList.Nodup ∧ ∀ b ∈ table.toList, b < 16 := by
  rw [← TableScan.fine_iff]
  obtain ⟨fine, s, taken, -⟩ | ⟨unfit, refused⟩ := ofTable_eq table
  · exact ⟨fun _ => fine, fun _ => ⟨s, taken⟩⟩
  · refine ⟨fun ⟨s, taken⟩ => ?_, fun fine => absurd fine unfit⟩
    cases refused.symm.trans taken

/-- The only reason to refuse a table is that it is no permutation. -/
theorem ofTable_eq_error_of_not_exists (h : ¬ ∃ s, ofTable table = .ok s) :
    ofTable table = .error .notAPermutation := by
  obtain ⟨-, s, taken, -⟩ | ⟨-, refused⟩ := ofTable_eq table
  · exact absurd ⟨s, taken⟩ h
  · exact refused

/-- The entry of a table at a place is where the shuffle takes the place. -/
theorem get_of_ofTable (h : ofTable table = .ok s) (x : Nibble) :
    table.get x.toFin = Byte.ofNibble (s.encode x) := by
  obtain rfl := ofTable_eq_ok_iff.1 h
  exact Vector.getElem_map _ _

/-- A table is taken exactly if its bytes are distinct and below sixteen; reading it shifts by
nothing else.  The shuffle has the table for its forward table and the places of the nibbles for
its inverse table, and is the only shuffle with that forward table. -/
theorem ofTable_takes (table : Vector Byte 16) :
    ((∃ s, ofTable table = .ok s) ↔ table.toList.Nodup ∧ ∀ b ∈ table.toList, b < 16) ∧
      ((¬ ∃ s, ofTable table = .ok s) → ofTable table = .error .notAPermutation) ∧
      ((TableScan.traced table).1 = TableScan.ofTable table ∧
        ∀ y ∈ (TableScan.traced table).2, y < 16) ∧
      ∀ s, ofTable table = .ok s →
        s.bytes = table ∧
          (∀ x : Nibble, s.inverse.lookup (Byte.low (table.get x.toFin)) = x) ∧
          (∀ y : Nibble, table.get (s.inverse.lookup y).toFin = Byte.ofNibble y) ∧
          (∀ t : NibbleShuffle, t.forward = s.forward → t = s) ∧
          ∀ v, s.onBytes.decode (s.onBytes.encode v) = v &&& 0x0f ∧
            s.onBytes.encode (s.onBytes.decode v) = v &&& 0x0f := by
  refine ⟨exists_ofTable_iff, ofTable_eq_error_of_not_exists, TableScan.traced_eq table,
    fun s taken => ⟨ofTable_eq_ok_iff.1 taken, fun x => ?_, fun y => ?_, fun t => ext_forward,
      s.dropsHigh⟩⟩
  · rw [get_of_ofTable taken, Byte.low_ofNibble]
    exact s.decode_encode x
  · rw [get_of_ofTable taken]
    exact congrArg Byte.ofNibble (s.encode_decode y)

/-- A table with its entries in no order, one with a byte that comes twice, and one with a byte
that is no nibble. -/
theorem ofTable_takes_shuffled :
    (∃ s, ofTable #v[12, 5, 6, 11, 9, 0, 10, 13, 3, 14, 15, 8, 4, 7, 1, 2] = .ok s ∧
        s.inverse.lookup 12 = 0 ∧ s.onBytes.decode (s.onBytes.encode 0x7b) = 0x0b) ∧
      ofTable #v[0, 1, 2, 3, 4, 5, 6, 7, 8, 9, 10, 11, 12, 13, 14, 7] = .error .notAPermutation ∧
      ofTable #v[0, 1, 2, 3, 4, 5, 6, 7, 8, 9, 10, 11, 12, 13, 14, 16] =
        .error .notAPermutation := by
  refine ⟨?_, ?_, ?_⟩
  · obtain ⟨taken, -, -, shuffle⟩ :=
      ofTable_takes #v[12, 5, 6, 11, 9, 0, 10, 13, 3, 14, 15, 8, 4, 7, 1, 2]
    obtain ⟨s, h⟩ := taken.2 (by decide)
    obtain ⟨-, places, -, -, masked⟩ := shuffle s h
    exact ⟨s, h, places 0, (masked 0x7b).1⟩
  · obtain ⟨taken, refused, -⟩ :=
      ofTable_takes #v[0, 1, 2, 3, 4, 5, 6, 7, 8, 9, 10, 11, 12, 13, 14, 7]
    exact refused fun h => absurd (taken.1 h) (by decide)
  · obtain ⟨taken, refused, -⟩ :=
      ofTable_takes #v[0, 1, 2, 3, 4, 5, 6, 7, 8, 9, 10, 11, 12, 13, 14, 16]
    exact refused fun h => absurd (taken.1 h) (by decide)

end NibbleShuffle

end WhiteBox
