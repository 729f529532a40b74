import WhiteBox.Exchange
import WhiteBox.Proofs.Encoding.Lawful
import WhiteBox.Proofs.Exchange.RoundTrip
import WhiteBox.Proofs.Exchange.Shape
import WhiteBox.Proofs.Keying.Label
import WhiteBox.Proofs.Matrix.Product

/-!
# Reading makes no ill-formed value

The shape of an encoding takes any sixteen bytes for a table and any matrix for a byte mixing,
and gives all tables and matrices of a text in order (`RawParts`).  The shape of a role takes
any bytes for coordinates (`RoleRequest`).  Each reader refines its shape, so

* every table in a text that is accepted is the table of a shuffle, which is a permutation, and
  every matrix is that of a byte mixing, which has an inverse (`Parts.wellFormed_raw`);
* a text of the right shape with any other table or matrix in it is refused, however deep in
  the text it stands (`Reader.Guards`);
* coordinates of roles are in range, so roles that are read have the labels of no other roles.
-/

namespace WhiteBox

/-! ## Parts of encodings -/

/-- The shuffles and byte mixings that a value is made of, in order. -/
structure Parts (σ μ : Type) where
  /-- The shuffles. -/
  shuffles : List σ
  /-- The byte mixings. -/
  mixings : List μ

/-- Parts as a text has them: tables and matrices that nobody has checked. -/
abbrev RawParts := Parts (Vector Byte 16) (Matrix 8)

namespace Parts

/-- The parts of two values, one after the other. -/
def append {σ μ : Type} (p q : Parts σ μ) : Parts σ μ :=
  ⟨p.shuffles ++ q.shuffles, p.mixings ++ q.mixings⟩

/-- The parts of all values of a list, in order. -/
def join {σ μ : Type} (ps : List (Parts σ μ)) : Parts σ μ :=
  ⟨ps.flatMap shuffles, ps.flatMap mixings⟩

/-- The forward tables and the matrices. -/
def raw (p : Parts NibbleShuffle ByteMixing) : RawParts :=
  ⟨p.shuffles.map NibbleShuffle.bytes, p.mixings.map ByteMixing.matrix⟩

theorem raw_append (p q : Parts NibbleShuffle ByteMixing) :
    (p.append q).raw = p.raw.append q.raw := by
  simp only [raw, append, List.map_append]

theorem raw_join (ps : List (Parts NibbleShuffle ByteMixing)) :
    (join ps).raw = join (ps.map raw) := by
  simp only [raw, join, List.map_flatMap, List.flatMap_map]

/-- Every table is a permutation and every matrix has an inverse on either side. -/
structure WellFormed (p : RawParts) : Prop where
  permutation : ∀ table ∈ p.shuffles, NibbleShuffle.IsPermutation table
  invertible : ∀ m ∈ p.mixings,
    ∃ inverse, m.mul inverse = Matrix.identity ∧ inverse.mul m = Matrix.identity

/-- Every shuffle keeps the inverse of its table, which is a permutation, and every byte mixing
keeps the inverse of its matrix. -/
structure Sound (p : Parts NibbleShuffle ByteMixing) : Prop where
  shuffle : ∀ s ∈ p.shuffles, NibbleShuffle.IsPermutation s.bytes ∧
    ∀ x, s.inverse.lookup (s.forward.lookup x) = x ∧ s.forward.lookup (s.inverse.lookup x) = x
  mixing : ∀ m ∈ p.mixings,
    m.matrix.mul m.inverse = Matrix.identity ∧ m.inverse.mul m.matrix = Matrix.identity

theorem sound (p : Parts NibbleShuffle ByteMixing) : p.Sound where
  shuffle s _ := ⟨s.isPermutation_bytes, fun x => ⟨s.inverse_forward x, s.forward_inverse x⟩⟩
  mixing m _ := Matrix.invert?_mul m.invert?_matrix

theorem wellFormed_raw (p : Parts NibbleShuffle ByteMixing) : p.raw.WellFormed where
  permutation table h := by
    obtain ⟨s, -, rfl⟩ := List.mem_map.1 h
    exact s.isPermutation_bytes
  invertible m h := by
    obtain ⟨mixing, member, rfl⟩ := List.mem_map.1 h
    exact ⟨mixing.inverse, p.sound.mixing mixing member⟩

end Parts

/-! ## Shapes of encodings

For each type, `parts` takes a value apart and `shape` takes a text of it apart, in the same
order. -/

/-- A shuffle is its own only part. -/
def NibbleShuffle.parts (s : NibbleShuffle) : Parts NibbleShuffle ByteMixing := ⟨[s], []⟩

/-- Sixteen bytes in place of a table. -/
def NibbleShuffle.shape : Reader RawParts :=
  (Reader.vector 16 (.word 8)).map fun table => ⟨[table], []⟩

theorem NibbleShuffle.refines : reader.Refines shape fun s => s.parts.raw :=
  (Reader.refines_self.map_right _).check fun table s h => by
    rw [← ofTable_eq_ok_iff.1 h]
    rfl

/-- A byte mixing is its own only part. -/
def ByteMixing.parts (m : ByteMixing) : Parts NibbleShuffle ByteMixing := ⟨[], [m]⟩

/-- Any matrix in place of one with an inverse. -/
def ByteMixing.shape : Reader RawParts := (Matrix.reader 8).map fun m => ⟨[], [m]⟩

theorem ByteMixing.matrix_ofMatrix {m : Matrix 8} {mixing : ByteMixing}
    (h : ofMatrix m = .ok mixing) : mixing.matrix = m := by
  unfold ofMatrix at h
  split at h
  · cases h
    rfl
  · cases h

theorem ByteMixing.refines : reader.Refines shape fun m => m.parts.raw :=
  (Reader.refines_self.map_right _).check fun m mixing h => by
    rw [← matrix_ofMatrix h]
    rfl

/-- The shuffle of the high half, and that of the low half. -/
def NibblePair.parts (p : NibblePair) : Parts NibbleShuffle ByteMixing :=
  p.high.parts.append p.low.parts

/-- The fields of a pair, with any bytes in its tables. -/
def NibblePair.shape : Reader RawParts :=
  (Reader.record (.field "high" NibbleShuffle.shape none
    (.field "low" NibbleShuffle.shape none .none))).map fun (high, low, ()) => high.append low

theorem NibblePair.refines : reader.Refines shape fun p => p.parts.raw :=
  (Reader.refines_record (.field NibbleShuffle.refines (.field NibbleShuffle.refines .none))).map
    fun (high, low, ()) => (Parts.raw_append high.parts low.parts).symm

/-- The byte mixing, and the parts of the pair behind it. -/
def MixedByte.parts (m : MixedByte) : Parts NibbleShuffle ByteMixing :=
  m.first.parts.append m.second.parts

/-- The fields of a mixed byte, with any matrix and any bytes in its tables. -/
def MixedByte.shape : Reader RawParts :=
  (Reader.record (.field "first" ByteMixing.shape none
    (.field "second" NibblePair.shape none .none))).map fun (first, second, ()) =>
      first.append second

theorem MixedByte.refines : reader.Refines shape fun m => m.parts.raw :=
  (Reader.refines_record (.field ByteMixing.refines (.field NibblePair.refines .none))).map
    fun (first, second, ()) => (Parts.raw_append first.parts second.parts).symm

/-- The parts of whatever kind of byte it is. -/
def MaskByte.parts : MaskByte → Parts NibbleShuffle ByteMixing
  | plain pair => pair.parts
  | mixed byte => byte.parts

/-- Either kind of byte by its name, in its own shape. -/
def MaskByte.shape : Reader RawParts :=
  .choice [("Plain", .carrying NibblePair.shape), ("Mixed", .carrying MixedByte.shape)]

theorem MaskByte.refines : reader.Refines shape fun b => b.parts.raw :=
  Reader.CasesRefine.choice (.cons ⟨rfl, .carrying (NibblePair.refines.map_left fun _ => rfl)⟩
    (.cons ⟨rfl, .carrying (MixedByte.refines.map_left fun _ => rfl)⟩ .nil))

/-- The parts of all pairs, in order. -/
def NibblePair.vectorParts {n : Nat} (pairs : Vector NibblePair n) :
    Parts NibbleShuffle ByteMixing :=
  .join (pairs.toList.map NibblePair.parts)

/-- That many pairs, with any bytes in their tables. -/
def NibblePair.vectorShape (n : Nat) : Reader RawParts :=
  (Reader.vector n NibblePair.shape).map fun parts => .join parts.toList

theorem NibblePair.refines_vector (n : Nat) :
    (vectorReader n).Refines (vectorShape n) fun pairs => (vectorParts pairs).raw := by
  have same (pairs : Vector NibblePair n) :
      Parts.join (pairs.map fun p => p.parts.raw).toList = (vectorParts pairs).raw := by
    rw [Vector.toList_map, vectorParts, Parts.raw_join, List.map_map]
    rfl
  intro v pairs h
  show vectorShape n v = .ok (vectorParts pairs).raw
  rw [← same]
  exact (NibblePair.refines.vector n).map_right (fun parts => Parts.join parts.toList) v pairs h

/-! ## Shapes of roles

The shape of a role is its reader with plain bytes in place of coordinates. -/

/-- A role with plain numbers for coordinates. -/
inductive RoleRequest where
  /-- Names a `Role.mask`. -/
  | mask (position subPosition : Nat) (surface : Surface)
  /-- Names a `Role.tyi`. -/
  | tyi (round position subPosition : Nat)
  /-- Names a `Role.mbInverse`. -/
  | mbInverse (round position subPosition : Nat)
  /-- Names a `Role.xor`. -/
  | xor (round position gate : Nat) (surface : Surface)
  /-- Names a `Role.round`. -/
  | round (round position : Nat) (surface : Surface)
  /-- Names a `Role.mixing`. -/
  | mixing (size : MixingSize) (round : Option Nat) (position : Nat)
  deriving DecidableEq, Repr

/-- The coordinates of a role as plain numbers. -/
def Role.request : Role → RoleRequest
  | mask p s f => .mask p.val s.val f
  | tyi r p s => .tyi r.val p.val s.val
  | mbInverse r p s => .mbInverse r.val p.val s.val
  | xor r p g f => .xor r.val p.val g.val f
  | round r p f => .round r.val p.val f
  | mixing m r p => .mixing m (r.map Coordinate.val) p.val

namespace RoleRequest

/-- The numbers, each with the quantity that it is a value of. -/
def coordinates : RoleRequest → List (Quantity × Nat)
  | mask p s _ => [(.bytePosition, p), (.nibblePosition, s)]
  | tyi r p s => [(.round, r), (.bytePosition, p), (.nibblePosition, s)]
  | mbInverse r p s => [(.round, r), (.bytePosition, p), (.nibblePosition, s)]
  | xor r p g _ => [(.round, r), (.nibblePosition, p), (.gate, g)]
  | round r p _ => [(.round, r), (.nibblePosition, p)]
  | mixing _ none p => [(.bytePosition, p)]
  | mixing _ (some r) p => [(.round, r), (.bytePosition, p)]

/-- No number exceeds the largest value of its quantity. -/
def InRange (request : RoleRequest) : Prop := ∀ c ∈ request.coordinates, c.2 ≤ c.1.max

/-- A number that has to be there and fits a byte. -/
def numberField {β : Type} (name : String) (rest : Fields β) : Fields (Nat × β) :=
  .field name (Reader.natural 255) none rest

/-- The fields of a mask. -/
def maskShape : Reader RoleRequest :=
  (Reader.record <| numberField "position" <| numberField "sub_position" <|
    Role.surfaceField .none).map fun (p, s, f, ()) => mask p s f

/-- The fields of a nibble of a table output. -/
def tableShape (request : Nat → Nat → Nat → RoleRequest) : Reader RoleRequest :=
  (Reader.record <| numberField "round" <| numberField "position" <|
    numberField "sub_position" .none).map fun (r, p, s, ()) => request r p s

/-- The fields of an accumulator. -/
def xorShape : Reader RoleRequest :=
  (Reader.record <| numberField "round" <| numberField "position" <| numberField "gate" <|
    Role.surfaceField .none).map fun (r, p, g, f, ()) => xor r p g f

/-- The fields of a nibble of half a round. -/
def roundShape : Reader RoleRequest :=
  (Reader.record <| numberField "round" <| numberField "position" <|
    Role.surfaceField .none).map fun (r, p, f, ()) => round r p f

/-- The fields of a mixing bijection, whose round may be left out. -/
def mixingShape : Reader RoleRequest :=
  (Reader.record <| .field "size" MixingSize.reader none <|
    .field "round" (Reader.optional (Reader.natural 255)) (some none) <|
    numberField "position" .none).map fun (m, r, p, ()) => mixing m r p

/-- Every kind of role by its name, with any bytes for coordinates. -/
def shape : Reader RoleRequest :=
  .choice [("Mask", .carrying maskShape), ("Tyi", .carrying (tableShape tyi)),
    ("MbInverse", .carrying (tableShape mbInverse)), ("Xor", .carrying xorShape),
    ("Round", .carrying roundShape), ("MixingBijection", .carrying mixingShape)]

end RoleRequest

theorem Coordinate.refines {q : Quantity} :
    (reader q).Refines (Reader.natural 255) Coordinate.val :=
  Reader.refines_self.check fun _ _ => ofNat_eq_ok_iff.1

/-- A coordinate and others, all in range. -/
theorem Coordinate.forall_mem_cons {q : Quantity} (c : Coordinate q)
    {others : List (Quantity × Nat)} (h : ∀ x ∈ others, x.2 ≤ x.1.max) :
    ∀ x ∈ (q, c.val) :: others, x.2 ≤ x.1.max :=
  List.forall_mem_cons.2 ⟨c.le_max, h⟩

namespace Role

theorem inRange_request : ∀ role : Role, role.request.InRange
  | mask p s _ => p.forall_mem_cons (s.forall_mem_cons nofun)
  | tyi r p s => r.forall_mem_cons (p.forall_mem_cons (s.forall_mem_cons nofun))
  | mbInverse r p s => r.forall_mem_cons (p.forall_mem_cons (s.forall_mem_cons nofun))
  | xor r p g _ => r.forall_mem_cons (p.forall_mem_cons (g.forall_mem_cons nofun))
  | round r p _ => r.forall_mem_cons (p.forall_mem_cons nofun)
  | mixing _ none p => p.forall_mem_cons nofun
  | mixing _ (some r) p => r.forall_mem_cons (p.forall_mem_cons nofun)

/-- A role with a round does not have the label of a mask boundary. -/
theorem label_ne_boundary {role : Role} {n : Nat} (h : (.round, n) ∈ role.request.coordinates)
    (m : MixingSize) (p : BytePos) : role.label ≠ (mixing m none p).label := by
  intro same
  rw [label_inj.1 same] at h
  cases h with
  | tail _ h => cases h

theorem refines_coordinate {β δ : Type} {name : String} {q : Quantity} {rest : Fields β}
    {rest' : Fields δ} {raw : β → δ} (refines : rest.Refines rest' raw) :
    (coordinateField name q rest).Refines (RoleRequest.numberField name rest')
      (Prod.map Coordinate.val raw) :=
  .field Coordinate.refines refines

theorem refines_surface {β δ : Type} {rest : Fields β} {rest' : Fields δ} {raw : β → δ}
    (refines : rest.Refines rest' raw) :
    (surfaceField rest).Refines (surfaceField rest') (Prod.map id raw) :=
  .field Reader.refines_self refines

theorem refines_mask : maskReader.Refines RoleRequest.maskShape request :=
  (Reader.refines_record (refines_coordinate (refines_coordinate (refines_surface .none)))).map
    fun (_, _, _, ()) => rfl

theorem refines_table {role : Round → BytePos → NibblePos → Role}
    {raw : Nat → Nat → Nat → RoleRequest}
    (h : ∀ r p s, raw r.val p.val s.val = (role r p s).request) :
    (tableReader role).Refines (RoleRequest.tableShape raw) request :=
  (Reader.refines_record (refines_coordinate (refines_coordinate (refines_coordinate .none)))).map
    fun (r, p, s, ()) => h r p s

theorem refines_xor : xorReader.Refines RoleRequest.xorShape request :=
  (Reader.refines_record (refines_coordinate (refines_coordinate (refines_coordinate
    (refines_surface .none))))).map fun (_, _, _, _, ()) => rfl

theorem refines_round : roundReader.Refines RoleRequest.roundShape request :=
  (Reader.refines_record (refines_coordinate (refines_coordinate (refines_surface .none)))).map
    fun (_, _, _, ()) => rfl

theorem refines_mixing : mixingReader.Refines RoleRequest.mixingShape request :=
  (Reader.refines_record (.field Reader.refines_self (.field Coordinate.refines.optional
    (refines_coordinate .none)))).map fun (_, _, _, ()) => rfl

theorem refines : reader.Refines RoleRequest.shape request :=
  Reader.CasesRefine.choice (.cons ⟨rfl, .carrying refines_mask⟩
    (.cons ⟨rfl, .carrying (refines_table fun _ _ _ => rfl)⟩
    (.cons ⟨rfl, .carrying (refines_table fun _ _ _ => rfl)⟩
    (.cons ⟨rfl, .carrying refines_xor⟩ (.cons ⟨rfl, .carrying refines_round⟩
    (.cons ⟨rfl, .carrying refines_mixing⟩ .nil))))))

end Role

/-! ## Texts -/

/-- What the reader makes of a text is well formed and obeys the law, and the text holds the
tables and matrices that it was made of.  A text of the right shape with a table that is no
permutation, or with a matrix without inverse, is refused. -/
structure Reader.Guards {α : Type} (read : Reader α) (shape : Reader RawParts)
    (parts : α → Parts NibbleShuffle ByteMixing) (law : α → Prop) : Prop where
  accepted : ∀ text a, read.text text = .ok a →
    shape.text text = .ok (parts a).raw ∧ (parts a).Sound ∧ law a
  refused : ∀ text raw, shape.text text = .ok raw → ¬ raw.WellFormed →
    ∃ refusal, read.text text = .error refusal

theorem Reader.guards_of_refines {α : Type} {read : Reader α} {shape : Reader RawParts}
    {parts : α → Parts NibbleShuffle ByteMixing} {law : α → Prop}
    (refines : read.Refines shape fun a => (parts a).raw) (lawful : ∀ a, law a) :
    read.Guards shape parts law where
  accepted _ a h := ⟨refines.text h, (parts a).sound, lawful a⟩
  refused _ _ h ill := refines.refused h fun a same => ill (same ▸ (parts a).wellFormed_raw)

/-- The reader of roles accepts only coordinates in range.  So roles with the same label come
from texts with the same numbers, and none with a round has the label of a mask boundary.  A
text of the right shape with a coordinate out of range is refused, in particular one with the
byte of the mask boundary in the place of a round. -/
structure Role.Guarded : Prop where
  accepted : ∀ text role, reader.text text = .ok role →
    RoleRequest.shape.text text = .ok role.request ∧ role.request.InRange
  label_inj : ∀ text role text' role', reader.text text = .ok role →
    reader.text text' = .ok role' → role.label = role'.label →
      RoleRequest.shape.text text = RoleRequest.shape.text text' ∧ role = role'
  label_ne_boundary : ∀ text role n, reader.text text = .ok role →
    (.round, n) ∈ role.request.coordinates → ∀ m p, role.label ≠ (mixing m none p).label
  refused : ∀ text request, RoleRequest.shape.text text = .ok request → ¬ request.InRange →
    ∃ refusal, reader.text text = .error refusal
  refused_boundary : ∀ text request, RoleRequest.shape.text text = .ok request →
    (.round, 255) ∈ request.coordinates → ∃ refusal, reader.text text = .error refusal

theorem Role.guarded : Guarded where
  accepted _ role h := ⟨refines.text h, role.inRange_request⟩
  label_inj _ _ _ _ h h' same := by
    cases Role.label_inj.1 same
    exact ⟨(refines.text h).trans (refines.text h').symm, rfl⟩
  label_ne_boundary _ _ _ _ numbered := Role.label_ne_boundary numbered
  refused _ _ h out := refines.refused h fun role same => out (same ▸ role.inRange_request)
  refused_boundary _ _ h boundary := refines.refused h fun role same =>
    absurd (role.inRange_request _ (same ▸ boundary)) (by decide)

/-- Reading makes no ill-formed shuffle, mixing, byte encoding or vector of them, and no role
with a coordinate out of range. -/
theorem Reader.guards_exchanged :
    NibbleShuffle.reader.Guards NibbleShuffle.shape NibbleShuffle.parts NibbleShuffle.DropsHigh ∧
      ByteMixing.reader.Guards ByteMixing.shape ByteMixing.parts (·.encoding.Lawful) ∧
      NibblePair.reader.Guards NibblePair.shape NibblePair.parts (·.encoding.Lawful) ∧
      MixedByte.reader.Guards MixedByte.shape MixedByte.parts (·.encoding.Lawful) ∧
      MaskByte.reader.Guards MaskByte.shape MaskByte.parts (·.encoding.Lawful) ∧
      (∀ n, (NibblePair.vectorReader n).Guards (NibblePair.vectorShape n) NibblePair.vectorParts
        fun pairs => (NibblePair.encodings pairs).Lawful) ∧
      Role.Guarded :=
  ⟨guards_of_refines NibbleShuffle.refines NibbleShuffle.dropsHigh,
    guards_of_refines ByteMixing.refines ByteMixing.lawful,
    guards_of_refines NibblePair.refines NibblePair.lawful,
    guards_of_refines MixedByte.refines MixedByte.lawful,
    guards_of_refines MaskByte.refines MaskByte.lawful,
    fun n => guards_of_refines (NibblePair.refines_vector n) NibblePair.lawful_encodings,
    Role.guarded⟩

/-- A constant table is refused, alone and inside of a byte of a mask, which is accepted with
permutations instead.  So is a round in the place of the mask boundary. -/
theorem Reader.guards_exchanged_constant :
    (∃ refusal, NibbleShuffle.reader.text "[0,0,0,0,0,0,0,0,0,0,0,0,0,0,0,0]".toList =
        .error refusal) ∧
      (∃ refusal, MaskByte.reader.text
        ("\x7b\"Plain\":\x7b\"high\":[0,1,2,3,4,5,6,7,8,9,10,11,12,13,14,15],"
          ++ "\"low\":[0,0,0,0,0,0,0,0,0,0,0,0,0,0,0,0]\x7d\x7d").toList = .error refusal) ∧
      (∃ b, MaskByte.reader.text
        ("\x7b\"Plain\":\x7b\"high\":[0,1,2,3,4,5,6,7,8,9,10,11,12,13,14,15],"
          ++ "\"low\":[0,1,2,3,4,5,6,7,8,9,10,11,12,13,14,15]\x7d\x7d").toList = .ok b ∧
        b.parts.Sound ∧ b.encoding.Lawful) ∧
      ∃ refusal, Role.reader.text
        "\x7b\"Tyi\":\x7b\"round\":255,\"position\":0,\"sub_position\":0\x7d\x7d".toList =
          .error refusal := by
  obtain ⟨shuffle, -, -, -, maskByte, -, role⟩ := guards_exchanged
  have ill {p : RawParts} (h : Vector.replicate 16 0 ∈ p.shuffles) : ¬ p.WellFormed := fun formed =>
    absurd (formed.permutation _ h) (by decide)
  refine ⟨?_, ?_, ?_, ?_⟩
  · exact shuffle.refused _ ⟨[Vector.replicate 16 0], []⟩ rfl (ill (by simp))
  · exact maskByte.refused _ ⟨[Vector.ofFn fun i => .ofNat 8 i, Vector.replicate 16 0], []⟩ rfl
      (ill (by simp))
  · have read := (readsBack_of_takes MaskByte.takes (.plain ⟨.identity, .identity⟩)).1
    obtain ⟨-, sound, lawful⟩ := maskByte.accepted _ _ read
    have text : ("\x7b\"Plain\":\x7b\"high\":[0,1,2,3,4,5,6,7,8,9,10,11,12,13,14,15],"
        ++ "\"low\":[0,1,2,3,4,5,6,7,8,9,10,11,12,13,14,15]\x7d\x7d").toList =
      (MaskByte.plain ⟨.identity, .identity⟩).toJson.compact := by decide
    exact ⟨_, text ▸ read, sound, lawful⟩
  · exact role.refused_boundary _ (.tyi 255 0 0) rfl (by decide)

/-- A shuffle that is read does not give back a byte with a high half. -/
theorem NibbleShuffle.decode_encode_high :
    reader.text "[0,1,2,3,4,5,6,7,8,9,10,11,12,13,14,15]".toList = .ok identity ∧
      identity.onBytes.decode (identity.onBytes.encode 0x10) ≠ 0x10 := by
  have text : "[0,1,2,3,4,5,6,7,8,9,10,11,12,13,14,15]".toList = identity.toJson.compact := by
    decide
  rw [text]
  exact ⟨(Reader.readsBack_of_takes takes identity).1, by decide⟩

end WhiteBox
