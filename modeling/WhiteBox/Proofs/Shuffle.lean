import Mathlib.Data.List.Nodup
import WhiteBox.Shuffle.Table
import WhiteBox.Proofs.Bytes

/-!
# Shuffles and their tables

A shuffle is built from a table of sixteen bytes if and only if the table is the shuffle's own
(`NibbleShuffle.ofTable_eq_ok_iff`).  So a table that is accepted comes back unchanged, and
inverting it gives the inverse that the shuffle has (`NibbleShuffle.invert_forward`).

Such a table lists the numbers below sixteen in some order
(`NibbleShuffle.isPermutation_bytes`).
-/

namespace WhiteBox

/-- The table that has each nibble at the place that its entry names: entry after entry, the
number of the entry is written there. -/
def NibbleTable.invert (t : NibbleTable) : NibbleTable :=
  (List.finRange 16).foldl
    (fun inverse x => inverse.set (t.get x).toNat (BitVec.ofFin x) (t.get x).isLt)
    (Vector.replicate 16 0)

namespace NibbleShuffle

theorem encode_injective (s : NibbleShuffle) : Function.Injective s.encode :=
  Function.LeftInverse.injective s.decode_encode

/-- Inverting writes each nibble where it goes, and no other nibble is written there. -/
theorem lookup_foldl_invert (s : NibbleShuffle) {l : List (Fin 16)} {start : NibbleTable}
    {x : Nibble} (h : x.toFin ∈ l ∨ start.lookup (s.encode x) = x) :
    NibbleTable.lookup (l.foldl (fun inverse a =>
        inverse.set (s.forward.get a).toNat (BitVec.ofFin a) (s.forward.get a).isLt) start)
        (s.encode x) = x := by
  induction l generalizing start with
  | nil => exact h.resolve_left List.not_mem_nil
  | cons a l ih =>
    rw [List.foldl_cons]
    by_cases here : a = x.toFin
    · refine ih (.inr ?_)
      subst here
      exact Vector.getElem_set_self _
    · refine ih (h.imp (fun mem => (List.mem_cons.1 mem).resolve_left (Ne.symm here))
        fun there => ?_)
      have elsewhere : ¬ (s.forward.get a).toNat = (s.encode x).toNat := fun same =>
        here (congrArg BitVec.toFin (s.encode_injective (BitVec.eq_of_toNat_eq same) :
          BitVec.ofFin a = x))
      rw [NibbleTable.lookup, Vector.getElem_set, if_neg elsewhere]
      exact there

/-- Inverting the forward table gives the inverse table. -/
theorem invert_forward (s : NibbleShuffle) : s.forward.invert = s.inverse := by
  refine NibbleTable.ext fun y => ?_
  rw [← s.encode_decode y, NibbleTable.invert, lookup_foldl_invert s (.inl (List.mem_finRange _))]
  exact (s.decode_encode _).symm

theorem map_low_bytes (s : NibbleShuffle) : s.bytes.map Byte.low = s.forward := by
  apply Vector.ext
  intro i hi
  rw [Vector.getElem_map, bytes, Vector.getElem_map, Byte.low_ofNibble]

theorem lt_of_mem_bytes (s : NibbleShuffle) {b : Byte} (h : b ∈ s.bytes.toList) : b < 16 := by
  rw [Vector.mem_toList_iff, bytes, Vector.mem_map] at h
  obtain ⟨x, -, rfl⟩ := h
  exact Byte.ofNibble_lt x

theorem fine_bytes (s : NibbleShuffle) : TableScan.Fine s.bytes (List.finRange 16) where
  small x _ := s.lt_of_mem_bytes (Vector.mem_toList_iff.2 (Vector.getElem_mem x.isLt))
  distinct := by
    have entry (x : Fin 16) : Byte.low (s.bytes.get x) = s.encode (.ofFin x) := by
      show Byte.low s.bytes[x.val] = _
      rw [bytes, Vector.getElem_map, Byte.low_ofNibble]
      rfl
    refine (List.nodup_finRange 16).map fun a b same => ?_
    have codes : s.encode (.ofFin a) = s.encode (.ofFin b) := by rw [← entry, ← entry, same]
    exact congrArg BitVec.toFin (s.encode_injective codes)

theorem ofTable_bytes (s : NibbleShuffle) : ofTable s.bytes = .ok s := by
  obtain ⟨-, t, taken, same⟩ | ⟨unfit, -⟩ := ofTable_eq s.bytes
  · rw [taken, ext_forward (same.trans s.map_low_bytes)]
  · exact absurd s.fine_bytes unfit

theorem ofTable_eq_ok_iff {table : Vector Byte 16} {s : NibbleShuffle} :
    ofTable table = .ok s ↔ s.bytes = table := by
  constructor
  · intro h
    obtain ⟨fine, t, taken, same⟩ | ⟨-, refused⟩ := ofTable_eq table
    · cases h.symm.trans taken
      refine Vector.ext fun i hi => ?_
      rw [bytes, same, Vector.getElem_map, Vector.getElem_map]
      exact Byte.ofNibble_low_of_lt (fine.small ⟨i, hi⟩ (List.mem_finRange _))
    · cases h.symm.trans refused
  · rintro rfl
    exact s.ofTable_bytes

/-- The table lists the numbers below sixteen in some order. -/
def IsPermutation (table : Vector Byte 16) : Prop :=
  table.toList.Perm ((List.range 16).map (BitVec.ofNat 8))

instance (table : Vector Byte 16) : Decidable (IsPermutation table) :=
  inferInstanceAs (Decidable (List.Perm _ _))

theorem toList_forward (s : NibbleShuffle) : s.forward.toList = Nibble.all.map s.encode := by
  apply List.ext_getElem
  · rw [Vector.length_toList, List.length_map]
    rfl
  · intro i hi _
    rw [Vector.length_toList] at hi
    simp [Nibble.all, encode, NibbleTable.lookup, Nat.mod_eq_of_lt hi]

theorem isPermutation_bytes (s : NibbleShuffle) : IsPermutation s.bytes := by
  have perm : (Nibble.all.map s.encode).Perm Nibble.all := by
    have distinct := Nibble.nodup_all.map s.encode_injective
    refine (List.perm_ext_iff_of_nodup distinct Nibble.nodup_all).2 fun y => ?_
    constructor
    · exact fun _ => Nibble.mem_all y
    · exact fun _ => List.mem_map.2 ⟨s.decode y, Nibble.mem_all _, s.encode_decode y⟩
  rw [IsPermutation, bytes, Vector.toList_map, toList_forward]
  exact perm.map Byte.ofNibble

end NibbleShuffle

end WhiteBox
