import Mathlib.Data.List.Forall2
import WhiteBox.Text.Json.Reader
import WhiteBox.Proofs.Build

/-!
# What readers accept

For each way to make a reader there is one law, which says which fragments it accepts and as
which values.  What is read of a text follows from these laws without going into a reader
again.

A record looks at its members one after the other and keeps a slot for each field.  What comes
out does not depend on the order of the members: the members with the name of the first field
are for that field (`Fields.Fills`), and all others are for the remaining fields
(`Fields.members_field`).  `Fields.Holds` says so for all fields of a record, and
`Reader.record_eq_ok` is the law.
-/

namespace WhiteBox

namespace Reader

variable {α β : Type}

theorem built_eq_ok {x : Except BuildError α} {a : α} : built x = .ok a ↔ x = .ok a := by
  cases x with
  | error cause => exact ⟨nofun, nofun⟩
  | ok b =>
    constructor
    · intro h
      cases h
      rfl
    · intro h
      cases h
      rfl

theorem check_eq_ok {read : Reader α} {build : α → Except BuildError β} {v : Fragment} {b : β} :
    read.check build v = .ok b ↔ ∃ a, read v = .ok a ∧ build a = .ok b := by
  rw [check, bind_eq_ok_iff]
  exact exists_congr fun a => and_congr_right fun _ => built_eq_ok

theorem map_eq_ok {read : Reader α} {f : α → β} {v : Fragment} {b : β} :
    read.map f v = .ok b ↔ ∃ a, read v = .ok a ∧ f a = b := by
  rw [map, bind_eq_ok_iff]
  exact exists_congr fun a => and_congr_right fun _ => ⟨Except.ok.inj, congrArg Except.ok⟩

theorem natural_eq_ok {max n : Nat} {v : Fragment} :
    natural max v = .ok n ↔ v = .natural n ∧ n ≤ max := by
  cases v with
  | natural m =>
    rw [natural]
    split
    · rename_i fits
      constructor
      · intro h
        cases h
        exact ⟨rfl, fits⟩
      · rintro ⟨h, -⟩
        cases h
        rfl
    · rename_i large
      constructor
      · intro h
        cases h
      · rintro ⟨h, fits⟩
        cases h
        exact absurd fits large
  | _ => exact ⟨nofun, fun h => nomatch h.1⟩

theorem optional_eq_ok {read : Reader α} {v : Fragment} {o : Option α} :
    optional read v = .ok o ↔
      v = .null ∧ o = none ∨ v ≠ .null ∧ ∃ a, read v = .ok a ∧ some a = o := by
  cases v with
  | null =>
    constructor
    · intro h
      exact .inl ⟨rfl, (Except.ok.inj h).symm⟩
    · rintro (⟨-, rfl⟩ | ⟨h, -⟩)
      · rfl
      · exact absurd rfl h
  | _ =>
    rw [optional, map_eq_ok_iff]
    · constructor
      · intro h
        exact .inr ⟨nofun, h⟩
      · rintro (⟨h, -⟩ | ⟨-, h⟩)
        · cases h
        · exact h
    · exact nofun

theorem mapM_eq_ok {read : Reader α} {items : List Fragment} {values : List α} :
    items.mapM read = .ok values ↔ List.Forall₂ (fun v a => read v = .ok a) items values := by
  induction items generalizing values with
  | nil =>
    rw [List.forall₂_nil_left_iff]
    exact ⟨fun h => (Except.ok.inj h).symm, fun h => congrArg Except.ok h.symm⟩
  | cons v rest ih =>
    rw [List.mapM_cons, bind_eq_ok_iff, List.forall₂_cons_left_iff]
    constructor
    · rintro ⟨a, first, h⟩
      obtain ⟨others, second, h⟩ := bind_eq_ok_iff.1 h
      exact ⟨a, others, first, ih.1 second, (Except.ok.inj h).symm⟩
    · rintro ⟨a, others, first, second, rfl⟩
      exact ⟨a, first, bind_eq_ok_iff.2 ⟨others, ih.2 second, rfl⟩⟩

theorem vector_eq_ok {n : Nat} {read : Reader α} {v : Fragment} {values : Vector α n} :
    vector n read v = .ok values ↔
      ∃ items, v = .array items true ∧
        List.Forall₂ (fun v a => read v = .ok a) items values.toList := by
  cases v with
  | array items closed =>
    rw [vector, bind_eq_ok_iff]
    constructor
    · rintro ⟨list, read_list, h⟩
      split at h
      · rename_i fits
        obtain ⟨size, length, rfl⟩ := fits
        cases h
        rw [List.take_of_length_le (Nat.le_of_eq length)] at read_list
        exact ⟨items, rfl, mapM_eq_ok.1 read_list⟩
      · cases h
    · rintro ⟨_, h, all⟩
      cases h
      have length : items.length = n := all.length_eq.trans values.length_toList
      refine ⟨values.toList, ?_, ?_⟩
      · rw [List.take_of_length_le (Nat.le_of_eq length)]
        exact mapM_eq_ok.2 all
      · rw [dif_pos ⟨values.length_toList, length, rfl⟩]
        rfl
  | _ => exact ⟨nofun, fun ⟨_, h, _⟩ => nomatch h⟩

theorem choice_eq_ok {cases : List (String × Case α)} {v : Fragment} {a : α} :
    choice cases v = .ok a ↔
      (∃ name, v = .text (some name) ∧ cases.lookup name = some (.plain a)) ∨
        ∃ name content c, v = .object [(some name, content)] true ∧
          cases.lookup name = some c ∧ c.content content = .ok a := by
  constructor
  · intro h
    unfold choice at h
    split at h
    · rename_i name
      split at h
      · rename_i found
        cases h
        exact .inl ⟨name, rfl, found⟩
      · cases h
    · rename_i name content more closed
      split at h
      · rename_i c found
        obtain ⟨value, content_eq, whole⟩ := bind_eq_ok_iff.1 h
        split at whole
        · rename_i last
          rw [Bool.and_eq_true, List.isEmpty_iff] at last
          obtain ⟨rfl, rfl⟩ := last
          cases whole
          exact .inr ⟨name, content, c, rfl, found, content_eq⟩
        · cases whole
      · cases h
    · cases h
  · rintro (⟨name, rfl, found⟩ | ⟨name, content, c, rfl, found, content_eq⟩)
    · rw [choice, found]
    · rw [choice, found]
      exact bind_eq_ok_iff.2 ⟨a, content_eq, rfl⟩

end Reader

/-! ## Records -/

namespace Fields

/-- What the members with a name hold. -/
def named (name : String) (members : List (Option String × Fragment)) : List Fragment :=
  members.filterMap fun m => if m.1 = some name then some m.2 else Option.none

/-- The members without a name. -/
def others (name : String) (members : List (Option String × Fragment)) :
    List (Option String × Fragment) :=
  members.filter fun m => decide (m.1 ≠ some name)

section

variable {name : String} {v : Fragment} {members : List (Option String × Fragment)}

theorem named_cons_self : named name ((some name, v) :: members) = v :: named name members :=
  List.filterMap_cons_some (if_pos rfl)

theorem named_cons_ne {key : Option String} (h : key ≠ some name) :
    named name ((key, v) :: members) = named name members :=
  List.filterMap_cons_none (if_neg h)

theorem others_cons_self : others name ((some name, v) :: members) = others name members :=
  List.filter_cons_of_neg (by rw [decide_eq_true_iff]; exact fun h => h rfl)

theorem others_cons_ne {key : Option String} (h : key ≠ some name) :
    others name ((key, v) :: members) = (key, v) :: others name members :=
  List.filter_cons_of_pos (decide_eq_true h)

end

/-- What the members with the name of a field make of its slot: there is at most one, and none
if the slot is taken. -/
inductive Fills {α : Type} (read : Reader α) : List Fragment → Option α → Option α → Prop where
  /-- No member. -/
  | kept {slot : Option α} : Fills read [] slot slot
  /-- The one member. -/
  | taken {v : Fragment} {a : α} : read v = .ok a → Fills read [v] Option.none (some a)

theorem Fills.head {α : Type} {read : Reader α} {v : Fragment} {vs : List Fragment}
    {slot slot' : Option α} (fills : Fills read (v :: vs) slot slot') :
    slot = Option.none ∧ ∃ a, read v = .ok a := by
  cases fills with
  | taken h => exact ⟨rfl, _, h⟩

theorem fills_cons_iff {α : Type} {read : Reader α} {v : Fragment} {vs : List Fragment} {a : α}
    {slot' : Option α} (h : read v = .ok a) :
    Fills read (v :: vs) Option.none slot' ↔ Fills read vs (some a) slot' := by
  constructor
  · intro fills
    cases fills with
    | taken h' =>
      rw [h] at h'
      cases h'
      exact .kept
  · intro fills
    cases fills with
    | kept => exact .taken h

/-- The members hold a record: whichever member has the name of a field is for that field, and
whatever has the name of no field is a whole value. -/
def Holds : {α : Type} → Fields α → List (Option String × Fragment) → α → Prop
  | _, .none, members, _ => ∀ m ∈ members, m.1.isSome = true ∧ m.2.isWhole = true
  | _, .field (α := a) name read absent rest, members, (value, more) =>
    (∃ slot : Option a, Fills read (named name members) Option.none slot ∧
      slot.or absent = some value) ∧ rest.Holds (others name members) more

variable {α β : Type}

section

variable {name : String} {read : Reader α} {absent : Option α} {rest : Fields β}
variable {slot slot' : Option α} {slots slots' : rest.Slots}

theorem member_field_self {v : Fragment} {filled : Option α × rest.Slots} :
    (Fields.field name read absent rest).member name v (slot, slots) = .ok filled ↔
      slot = Option.none ∧ ∃ a, read v = .ok a ∧ (some a, slots) = filled := by
  rw [member, if_pos rfl]
  cases slot with
  | some _ => exact ⟨nofun, fun h => nomatch h.1⟩
  | none => exact map_eq_ok_iff.trans (and_iff_right rfl).symm

theorem member_field_ne {key : String} (other : key ≠ name) {v : Fragment}
    {filled : Option α × rest.Slots} :
    (Fields.field name read absent rest).member key v (slot, slots) = .ok filled ↔
      ∃ next, rest.member key v slots = .ok next ∧ (slot, next) = filled := by
  rw [member, if_neg other.symm]
  exact map_eq_ok_iff

/-- The members with the name of the first field go into its slot, all others to the other
fields. -/
theorem members_field {members : List (Option String × Fragment)} :
    (Fields.field name read absent rest).members members (slot, slots) = .ok (slot', slots') ↔
      Fills read (named name members) slot slot' ∧
        rest.members (others name members) slots = .ok slots' := by
  induction members generalizing slot slots with
  | nil =>
    constructor
    · intro h
      cases h
      exact ⟨.kept, rfl⟩
    · rintro ⟨fills, h⟩
      cases fills
      cases h
      rfl
  | cons m ms ih =>
    obtain ⟨_ | key, v⟩ := m
    · have other : Option.none ≠ some name := nofun
      rw [others_cons_ne other]
      exact ⟨nofun, fun h => nomatch h.2⟩
    · rw [Fields.members, bind_eq_ok_iff]
      by_cases same : key = name
      · subst same
        rw [named_cons_self, others_cons_self]
        constructor
        · rintro ⟨_, h, more⟩
          obtain ⟨rfl, a, read_eq, rfl⟩ := member_field_self.1 h
          rw [ih] at more
          exact ⟨(fills_cons_iff read_eq).2 more.1, more.2⟩
        · rintro ⟨fills, more⟩
          obtain ⟨rfl, a, read_eq⟩ := fills.head
          exact ⟨_, member_field_self.2 ⟨rfl, a, read_eq, rfl⟩,
            ih.2 ⟨(fills_cons_iff read_eq).1 fills, more⟩⟩
      · have other : some key ≠ some name := fun h => same (Option.some.inj h)
        rw [named_cons_ne other, others_cons_ne other, Fields.members, bind_eq_ok_iff]
        constructor
        · rintro ⟨_, h, more⟩
          obtain ⟨next, first, rfl⟩ := (member_field_ne same).1 h
          rw [ih] at more
          exact ⟨more.1, next, first, more.2⟩
        · rintro ⟨fills, next, first, more⟩
          exact ⟨_, (member_field_ne same).2 ⟨next, first, rfl⟩, ih.2 ⟨fills, more⟩⟩

end

theorem members_none {members : List (Option String × Fragment)} :
    Fields.none.members members () = .ok () ↔
      ∀ m ∈ members, m.1.isSome = true ∧ m.2.isWhole = true := by
  induction members with
  | nil => exact ⟨nofun, fun _ => rfl⟩
  | cons m ms ih =>
    rw [List.forall_mem_cons, ← ih]
    obtain ⟨_ | key, v⟩ := m
    · exact ⟨nofun, fun h => nomatch h.1.1⟩
    · rw [Fields.members, bind_eq_ok_iff]
      constructor
      · rintro ⟨_, h, more⟩
        rw [member] at h
        split at h
        · rename_i whole
          exact ⟨⟨rfl, whole⟩, more⟩
        · cases h
      · rintro ⟨⟨-, whole⟩, more⟩
        exact ⟨(), if_pos whole, more⟩

/-- The members of an object make a record if they hold it. -/
theorem complete_members : {α : Type} → {fields : Fields α} →
    {members : List (Option String × Fragment)} → {a : α} →
    ((∃ slots, fields.members members fields.empty = .ok slots ∧ fields.complete slots = .ok a) ↔
      fields.Holds members a)
  | _, .none, _, _ => by
    constructor
    · rintro ⟨_, h, -⟩
      exact members_none.1 h
    · intro h
      exact ⟨(), members_none.2 h, rfl⟩
  | _, .field name read absent rest, members, (value, more) => by
    rw [Holds, ← complete_members]
    constructor
    · rintro ⟨⟨slot, slots⟩, h, complete_eq⟩
      obtain ⟨fills, h⟩ := members_field.1 h
      rw [complete] at complete_eq
      split at complete_eq
      · rename_i value' filled
        obtain ⟨_, rest_eq, h'⟩ := map_eq_ok_iff.1 complete_eq
        cases h'
        exact ⟨⟨slot, fills, filled⟩, slots, h, rest_eq⟩
      · cases complete_eq
    · rintro ⟨⟨slot, fills, filled⟩, slots, h, rest_eq⟩
      refine ⟨(slot, slots), members_field.2 ⟨fills, h⟩, ?_⟩
      rw [complete]
      simp only [filled]
      exact map_eq_ok_iff.2 ⟨more, rest_eq, rfl⟩

theorem Fills.perm {read : Reader α} {vs ws : List Fragment} {slot slot' : Option α}
    (fills : Fills read vs slot slot') (h : vs.Perm ws) : Fills read ws slot slot' := by
  cases fills with
  | kept =>
    rw [h.symm.eq_nil]
    exact .kept
  | taken read_eq =>
    rw [List.perm_singleton.1 h.symm]
    exact .taken read_eq

/-- The order of the members does not matter. -/
theorem Holds.perm : {α : Type} → {fields : Fields α} →
    {ms ns : List (Option String × Fragment)} → {a : α} →
    fields.Holds ms a → ms.Perm ns → fields.Holds ns a
  | _, .none, _, _, _, holds, h => fun m hm => holds m (h.mem_iff.2 hm)
  | _, .field _ _ _ _, _, _, (_, _), holds, h => by
    obtain ⟨⟨slot, fills, filled⟩, more⟩ := holds
    exact ⟨⟨slot, fills.perm (h.filterMap _), filled⟩, more.perm (h.filter _)⟩

end Fields

namespace Reader

variable {α : Type}

/-- A record is an object that holds it, or the array of all its fields. -/
theorem record_eq_ok {fields : Fields α} {v : Fragment} {a : α} :
    record fields v = .ok a ↔
      (∃ items, v = .array items true ∧ fields.items items = .ok a) ∨
        ∃ members, v = .object members true ∧ fields.Holds members a := by
  cases v with
  | array items closed =>
    rw [record, bind_eq_ok_iff]
    constructor
    · rintro ⟨_, items_eq, h⟩
      split at h
      · rename_i reached
        cases reached
        cases h
        exact .inl ⟨items, rfl, items_eq⟩
      · cases h
    · rintro (⟨_, h, items_eq⟩ | ⟨_, h, -⟩)
      · cases h
        exact ⟨a, items_eq, rfl⟩
      · cases h
  | object members closed =>
    rw [record, bind_eq_ok_iff]
    constructor
    · rintro ⟨slots, members_eq, h⟩
      split at h
      · rename_i reached
        cases reached
        exact .inr ⟨members, rfl, Fields.complete_members.1 ⟨slots, members_eq, h⟩⟩
      · cases h
    · rintro (⟨_, h, -⟩ | ⟨_, h, holds⟩)
      · cases h
      · cases h
        exact Fields.complete_members.2 holds
  | _ => exact ⟨nofun, fun h => nomatch h⟩

/-- A text is read if the value that it holds is, and nothing follows the value. -/
theorem text_eq_ok {read : Reader α} {text : List Char} {a : α} :
    read.text text = .ok a ↔
      (Document.ofText text).ended = true ∧ read (Document.ofText text).root = .ok a := by
  rw [Reader.text, bind_eq_ok_iff]
  constructor
  · rintro ⟨_, read_eq, h⟩
    split at h
    · rename_i ended
      cases h
      exact ⟨ended, read_eq⟩
    · cases h
  · rintro ⟨ended, read_eq⟩
    exact ⟨a, read_eq, if_pos ended⟩

end Reader

end WhiteBox
