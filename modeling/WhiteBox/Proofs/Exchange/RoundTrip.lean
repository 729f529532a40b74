import WhiteBox.Exchange
import WhiteBox.Proofs.Encoding.Lawful
import WhiteBox.Proofs.Exchange.Reading
import WhiteBox.Proofs.Shuffle
import WhiteBox.Proofs.Text.Document

/-!
# Exchanged values are read back

A value may be written in more ways than one.  The fields of a record stand in any order, or
the record is the array of its fields in the order of their declaration (`Json.Rewrites`), and
blanks stand between tokens (`Token.Spaced`).  Whoever wrote a value in one of these ways, its
reader gives the same value back.

`Reader.Takes` says so for one value.  Each way to make a reader keeps it: a record takes its
fields by name, wherever they stand (`Fields.Takes.holds`), or by place
(`Fields.Takes.items_eq`).  The derived parts of a value are not written.  They come back
because each is determined by what is written: a shuffle by its table
(`NibbleShuffle.ofTable_bytes`), a byte mixing by its matrix (`ByteMixing.ofMatrix_matrix`).
-/

namespace WhiteBox

/-! ## Other ways to write a value -/

namespace Json

mutual

/-- The second value is the first one with the fields of its records in some order, or with
arrays in place of records. -/
inductive Rewrites : Json → Json → Prop where
  | null : Rewrites .null .null
  | natural {n : Nat} : Rewrites (.natural n) (.natural n)
  | text {s : String} : Rewrites (.text s) (.text s)
  | array {vs ws : List Json} : RewritesItems vs ws → Rewrites (.array vs) (.array ws)
  | variant {name : String} {v w : Json} :
    Rewrites v w → Rewrites (.variant name v) (.variant name w)
  /-- The fields in some order. -/
  | object {fs gs hs : List (String × Json)} :
    RewritesFields fs gs → gs.Perm hs → Rewrites (.object fs) (.object hs)
  /-- An array of what the fields hold. -/
  | positional {fs : List (String × Json)} {ws : List Json} :
    RewritesItems (fs.map Prod.snd) ws → Rewrites (.object fs) (.array ws)

/-- Item by item. -/
inductive RewritesItems : List Json → List Json → Prop where
  | nil : RewritesItems [] []
  | cons {v w : Json} {vs ws : List Json} :
    Rewrites v w → RewritesItems vs ws → RewritesItems (v :: vs) (w :: ws)

/-- Field by field, without changing the order. -/
inductive RewritesFields : List (String × Json) → List (String × Json) → Prop where
  | nil : RewritesFields [] []
  | cons {name : String} {v w : Json} {fs gs : List (String × Json)} :
    Rewrites v w → RewritesFields fs gs → RewritesFields ((name, v) :: fs) ((name, w) :: gs)

end

mutual

theorem Rewrites.refl : ∀ v : Json, v.Rewrites v
  | .null => .null
  | .natural _ => .natural
  | .text _ => .text
  | .array vs => .array (RewritesItems.refl vs)
  | .object fs => .object (RewritesFields.refl fs) (List.Perm.refl fs)
  | .variant _ v => .variant (Rewrites.refl v)

theorem RewritesItems.refl : ∀ vs : List Json, RewritesItems vs vs
  | [] => .nil
  | v :: vs => .cons (Rewrites.refl v) (RewritesItems.refl vs)

theorem RewritesFields.refl : ∀ fs : List (String × Json), RewritesFields fs fs
  | [] => .nil
  | (_, v) :: fs => .cons (Rewrites.refl v) (RewritesFields.refl fs)

end

theorem RewritesFields.names_eq : ∀ {fs gs : List (String × Json)}, RewritesFields fs gs →
    gs.map Prod.fst = fs.map Prod.fst
  | _, _, .nil => rfl
  | _, _, .cons _ rest => congrArg (_ :: ·) rest.names_eq

theorem fieldFragments_eq_map : ∀ fs : List (String × Json),
    fieldFragments fs = fs.map fun f => (some f.1, f.2.fragment)
  | [] => rfl
  | (_, _) :: fs => congrArg (_ :: ·) (fieldFragments_eq_map fs)

end Json

namespace Fields

variable {name : String} {fs : List (String × Json)}

theorem ne_of_mem_fieldFragments (absent : name ∉ fs.map Prod.fst) :
    ∀ m ∈ Json.fieldFragments fs, m.1 ≠ some name := by
  intro m hm h
  rw [Json.fieldFragments_eq_map] at hm
  obtain ⟨f, hf, rfl⟩ := List.mem_map.1 hm
  exact absent (List.mem_map.2 ⟨f, hf, Option.some.inj h⟩)

theorem named_fieldFragments (absent : name ∉ fs.map Prod.fst) :
    named name (Json.fieldFragments fs) = [] :=
  List.filterMap_eq_nil_iff.2 fun m hm => if_neg (ne_of_mem_fieldFragments absent m hm)

theorem others_fieldFragments (absent : name ∉ fs.map Prod.fst) :
    others name (Json.fieldFragments fs) = Json.fieldFragments fs :=
  List.filter_eq_self.2 fun m hm => decide_eq_true (ne_of_mem_fieldFragments absent m hm)

end Fields

/-! ## Readers that take written values -/

namespace Reader

variable {α β : Type}

/-- The reader takes the value for `a`, in whichever way it is written. -/
def Takes (read : Reader α) (v : Json) (a : α) : Prop :=
  ∀ w, v.Rewrites w → read w.fragment = .ok a

variable {read : Reader α} {v : Json} {a : α}

theorem Takes.check {build : α → Except BuildError β} {b : β} (takes : read.Takes v a)
    (h : build a = .ok b) : (read.check build).Takes v b := by
  intro w hw
  exact check_eq_ok.2 ⟨a, takes w hw, h⟩

theorem Takes.map (f : α → β) (takes : read.Takes v a) : (read.map f).Takes v (f a) := by
  intro w hw
  exact map_eq_ok.2 ⟨a, takes w hw, rfl⟩

theorem takes_natural {max n : Nat} (h : n ≤ max) : (natural max).Takes (.natural n) n := by
  intro w hw
  cases hw
  exact natural_eq_ok.2 ⟨rfl, h⟩

theorem takes_null : (optional read).Takes .null none := by
  intro w hw
  cases hw
  rfl

/-- Anything but null is taken as a value. -/
theorem Takes.optional {n : Nat} (takes : read.Takes (.natural n) a) :
    (optional read).Takes (.natural n) (some a) := by
  intro w hw
  cases hw
  exact optional_eq_ok.2 (.inr ⟨nofun, a, takes _ .natural, rfl⟩)

theorem takes_plain {cases : List (String × Case α)} {name : String}
    (found : cases.lookup name = some (.plain a)) : (choice cases).Takes (.text name) a := by
  intro w hw
  cases hw
  exact choice_eq_ok.2 (.inl ⟨name, rfl, found⟩)

theorem Takes.carrying {cases : List (String × Case α)} {name : String} (takes : read.Takes v a)
    (found : cases.lookup name = some (.carrying read)) :
    (choice cases).Takes (.variant name v) a := by
  intro w hw
  cases hw with
  | variant hw => exact choice_eq_ok.2 (.inr ⟨name, _, _, rfl, found, takes _ hw⟩)

theorem forall₂_itemFragments {f : α → Json} (takes : ∀ a, read.Takes (f a) a) :
    ∀ {as : List α} {ws : List Json}, Json.RewritesItems (as.map f) ws →
      List.Forall₂ (fun v a => read v = .ok a) (Json.itemFragments ws) as
  | [], _, .nil => .nil
  | a :: _, _, .cons hw rest => .cons (takes a _ hw) (forall₂_itemFragments takes rest)

theorem takes_vector {f : α → Json} (takes : ∀ a, read.Takes (f a) a) {n : Nat}
    (values : Vector α n) : (vector n read).Takes (.array (values.toList.map f)) values := by
  intro w hw
  cases hw with
  | array hw => exact vector_eq_ok.2 ⟨_, rfl, forall₂_itemFragments takes hw⟩

end Reader

/-- The fields take what a record holds, field by field. -/
inductive Fields.Takes : {α : Type} → Fields α → List (String × Json) → α → Prop where
  | none : Takes .none [] ()
  | field {α β : Type} {name : String} {read : Reader α} {absent : Option α} {rest : Fields β}
    {v : Json} {fs : List (String × Json)} {a : α} {b : β} :
    read.Takes v a → Takes rest fs b → Takes (.field name read absent rest) ((name, v) :: fs) (a, b)

namespace Fields

/-- By name. -/
theorem Takes.holds {α : Type} {fields : Fields α} {fs gs : List (String × Json)} {a : α}
    (takes : fields.Takes fs a) (distinct : (fs.map Prod.fst).Nodup)
    (rewrites : Json.RewritesFields fs gs) : fields.Holds (Json.fieldFragments gs) a := by
  induction takes generalizing gs with
  | none =>
    cases rewrites
    exact fun m hm => nomatch hm
  | field takes _ ih =>
    cases rewrites with
    | cons hw rest =>
      obtain ⟨new, distinct⟩ := List.nodup_cons.1 distinct
      rw [← rest.names_eq] at new
      rw [Json.fieldFragments, Holds, named_cons_self, others_cons_self, named_fieldFragments new,
        others_fieldFragments new]
      exact ⟨⟨_, .taken (takes _ hw), rfl⟩, ih distinct rest⟩

/-- By place. -/
theorem Takes.items_eq {α : Type} {fields : Fields α} {fs : List (String × Json)}
    {ws : List Json} {a : α} (takes : fields.Takes fs a)
    (rewrites : Json.RewritesItems (fs.map Prod.snd) ws) :
    fields.items (Json.itemFragments ws) = .ok a := by
  induction takes generalizing ws with
  | none =>
    cases rewrites
    rfl
  | field takes _ ih =>
    cases rewrites with
    | cons hw rest =>
      rw [Json.itemFragments, items, takes _ hw, ok_bind, ih rest]
      rfl

end Fields

theorem Reader.takes_record {α : Type} {fields : Fields α} {fs : List (String × Json)} {a : α}
    (takes : fields.Takes fs a) (distinct : (fs.map Prod.fst).Nodup) :
    (record fields).Takes (.object fs) a := by
  intro w hw
  rw [record_eq_ok]
  cases hw with
  | object rewrites order =>
    have shuffled := order.map fun f : String × Json => (some f.1, f.2.fragment)
    rw [← Json.fieldFragments_eq_map, ← Json.fieldFragments_eq_map] at shuffled
    exact .inr ⟨_, rfl, (takes.holds distinct rewrites).perm shuffled⟩
  | positional rewrites => exact .inl ⟨_, rfl, takes.items_eq rewrites⟩

/-! ## The exchanged types -/

section

variable {n k : Nat}

theorem Reader.takes_word (w : BitVec n) : (word n).Takes (.natural w.toNat) w := by
  have fits : w.toNat ≤ (BitVec.allOnes n).toNat := by
    rw [BitVec.toNat_allOnes]
    exact Nat.le_sub_one_of_lt w.isLt
  have takes := (takes_natural fits).map (BitVec.ofNat n)
  rw [BitVec.ofNat_toNat, BitVec.setWidth_eq] at takes
  exact takes

theorem Reader.takes_naturals (words : Vector (BitVec n) k) :
    (vector k (word n)).Takes (.naturals words) words :=
  takes_vector takes_word words

theorem Coordinate.takes {q : Quantity} (c : Coordinate q) : (reader q).Takes c.toJson c :=
  (Reader.takes_natural (Nat.le_of_lt_succ (Nat.lt_of_le_of_lt c.le_max q.max_lt))).check
    (Coordinate.ofNat_of_le c.le_max)

theorem Surface.takes : ∀ f : Surface, reader.Takes f.toJson f
  | inside => Reader.takes_plain rfl
  | outside => Reader.takes_plain rfl

theorem MixingSize.takes : ∀ m : MixingSize, reader.Takes m.toJson m
  | byte => Reader.takes_plain rfl
  | word => Reader.takes_plain rfl
  | block => Reader.takes_plain rfl

theorem Role.takes : ∀ role : Role, reader.Takes role.toJson role
  | mask p s f =>
    .carrying ((Reader.takes_record (.field p.takes (.field s.takes (.field f.takes .none)))
      (by simp)).map _) rfl
  | tyi r p s =>
    .carrying ((Reader.takes_record (.field r.takes (.field p.takes (.field s.takes .none)))
      (by simp)).map _) rfl
  | mbInverse r p s =>
    .carrying ((Reader.takes_record (.field r.takes (.field p.takes (.field s.takes .none)))
      (by simp)).map _) rfl
  | xor r p g f =>
    .carrying ((Reader.takes_record (.field r.takes (.field p.takes (.field g.takes
      (.field f.takes .none)))) (by simp)).map _) rfl
  | round r p f =>
    .carrying ((Reader.takes_record (.field r.takes (.field p.takes (.field f.takes .none)))
      (by simp)).map _) rfl
  | mixing m none p =>
    .carrying ((Reader.takes_record (.field m.takes (.field Reader.takes_null
      (.field p.takes .none))) (by simp)).map _) rfl
  | mixing m (some r) p =>
    .carrying ((Reader.takes_record (.field m.takes (.field r.takes.optional
      (.field p.takes .none))) (by simp)).map _) rfl

theorem Matrix.takes (m : Matrix n) : (reader n).Takes m.toJson m :=
  (Reader.takes_record (.field (Reader.takes_naturals m.rows) .none) (by simp)).map _

theorem NibbleShuffle.toJson_eq (s : NibbleShuffle) : s.toJson = .naturals s.bytes := by
  rw [toJson, Json.naturals, Json.naturals, bytes, Vector.toList_map, List.map_map]
  rfl

theorem NibbleShuffle.takes (s : NibbleShuffle) : reader.Takes s.toJson s := by
  rw [toJson_eq]
  exact (Reader.takes_naturals s.bytes).check s.ofTable_bytes

theorem ByteMixing.takes (m : ByteMixing) : reader.Takes m.toJson m :=
  m.matrix.takes.check m.ofMatrix_matrix

theorem NibblePair.takes (p : NibblePair) : reader.Takes p.toJson p :=
  (Reader.takes_record (.field p.high.takes (.field p.low.takes .none)) (by simp)).map _

theorem MixedByte.takes (m : MixedByte) : reader.Takes m.toJson m :=
  (Reader.takes_record (.field m.first.takes (.field m.second.takes .none)) (by simp)).map _

theorem MaskByte.takes : ∀ b : MaskByte, reader.Takes b.toJson b
  | plain pair => .carrying (pair.takes.map _) rfl
  | mixed byte => .carrying (byte.takes.map _) rfl

theorem NibblePair.takes_vector (pairs : Vector NibblePair n) :
    (vectorReader n).Takes (vectorJson pairs) pairs :=
  Reader.takes_vector NibblePair.takes pairs

end

/-! ## Texts -/

/-- The reader gives every value back: from its compact text, and from any text that differs
from it by the order of fields, by arrays in place of records, and by blanks. -/
def Reader.ReadsBack {α : Type} (read : Reader α) (toJson : α → Json) : Prop :=
  ∀ a, read.text (toJson a).compact = .ok a ∧
    ∀ w text, (toJson a).Rewrites w → Token.Spaced w.tokens text → read.text text = .ok a

theorem Reader.readsBack_of_takes {α : Type} {read : Reader α} {toJson : α → Json}
    (takes : ∀ a, read.Takes (toJson a) a) : read.ReadsBack toJson := by
  intro a
  have back (w : Json) (text : List Char) (rewrites : (toJson a).Rewrites w)
      (spaced : Token.Spaced w.tokens text) : read.text text = .ok a := by
    rw [text_eq_ok, Document.ofText_eq spaced]
    exact ⟨rfl, takes a w rewrites⟩
  exact ⟨back _ _ (Json.Rewrites.refl _) (Json.spaced_compact _), back⟩

/-- Every exchanged value is read back. -/
theorem Reader.readsBack_exchanged :
    (∀ q, (Coordinate.reader q).ReadsBack Coordinate.toJson) ∧
      Surface.reader.ReadsBack Surface.toJson ∧
      MixingSize.reader.ReadsBack MixingSize.toJson ∧
      Role.reader.ReadsBack Role.toJson ∧
      Label.reader.ReadsBack Label.toJson ∧
      (∀ n, (Matrix.reader n).ReadsBack Matrix.toJson) ∧
      NibbleShuffle.reader.ReadsBack NibbleShuffle.toJson ∧
      ByteMixing.reader.ReadsBack ByteMixing.toJson ∧
      NibblePair.reader.ReadsBack NibblePair.toJson ∧
      MixedByte.reader.ReadsBack MixedByte.toJson ∧
      MaskByte.reader.ReadsBack MaskByte.toJson ∧
      ∀ n, (NibblePair.vectorReader n).ReadsBack NibblePair.vectorJson :=
  ⟨fun _ => readsBack_of_takes Coordinate.takes, readsBack_of_takes Surface.takes,
    readsBack_of_takes MixingSize.takes, readsBack_of_takes Role.takes,
    readsBack_of_takes takes_naturals, fun _ => readsBack_of_takes Matrix.takes,
    readsBack_of_takes NibbleShuffle.takes, readsBack_of_takes ByteMixing.takes,
    readsBack_of_takes NibblePair.takes, readsBack_of_takes MixedByte.takes,
    readsBack_of_takes MaskByte.takes, fun _ => readsBack_of_takes NibblePair.takes_vector⟩

/-- A role whose coordinates stand in an array, behind a blank. -/
theorem Reader.readsBack_exchanged_positional :
    Role.reader.text " \x7b\"Mask\":[3,7,\"Inside\"]\x7d".toList =
      .ok (.mask ⟨3, by decide⟩ ⟨7, by decide⟩ .inside) := by
  have text : " \x7b\"Mask\":[3,7,\"Inside\"]\x7d".toList = [' '] ++
    (Json.variant "Mask" (.array [.natural 3, .natural 7, .text "Inside"])).compact := by decide
  have blank : ∀ c ∈ [' '], Token.IsBlank c := fun c hc => .inl (List.mem_singleton.1 hc)
  rw [text]
  exact (readsBack_exchanged.2.2.2.1 (.mask ⟨3, by decide⟩ ⟨7, by decide⟩ .inside)).2 _ _
    (.variant (.positional (.cons .natural (.cons .natural (.cons .text .nil)))))
    (.blanks_append blank (Json.spaced_compact _))

end WhiteBox
