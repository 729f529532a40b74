import WhiteBox.Proofs.Exchange.Reading

/-!
# Readers without their checks

A text may have the form of a value without standing for one: it is read well until a check
refuses what was read.  The *shape* of a reader takes such texts too.  It is put together like
the reader, without the checks, and gives what it read in a raw form.

`Reader.Refines` relates the two: whatever the reader accepts, the shape accepts, and gives
the raw form of the value.  Each way to make a reader keeps it.  So a text whose raw form is
that of no value is refused (`Reader.Refines.refused`).
-/

namespace WhiteBox

namespace Reader

variable {α β γ δ : Type}

/-- What the reader accepts, the shape accepts, and gives the raw form of the value. -/
def Refines (read : Reader α) (shape : Reader γ) (raw : α → γ) : Prop :=
  ∀ v a, read v = .ok a → shape v = .ok (raw a)

variable {read : Reader α} {shape : Reader γ} {raw : α → γ}

theorem refines_self : read.Refines read id := fun _ _ h => h

theorem Refines.check {build : α → Except BuildError β} {raw' : β → γ}
    (refines : read.Refines shape raw) (h : ∀ a b, build a = .ok b → raw a = raw' b) :
    (read.check build).Refines shape raw' := by
  intro v b hb
  obtain ⟨a, read_eq, built⟩ := check_eq_ok.1 hb
  rw [← h a b built]
  exact refines v a read_eq

theorem Refines.map_right (refines : read.Refines shape raw) (g : γ → δ) :
    read.Refines (shape.map g) fun a => g (raw a) :=
  fun v a h => map_eq_ok.2 ⟨raw a, refines v a h, rfl⟩

theorem Refines.map_left {f : α → β} {raw' : β → γ} (refines : read.Refines shape raw)
    (h : ∀ a, raw a = raw' (f a)) : (read.map f).Refines shape raw' := by
  intro v b hb
  obtain ⟨a, read_eq, rfl⟩ := map_eq_ok.1 hb
  rw [← h a]
  exact refines v a read_eq

theorem Refines.map {f : α → β} {g : γ → δ} {raw' : β → δ} (refines : read.Refines shape raw)
    (h : ∀ a, g (raw a) = raw' (f a)) : (read.map f).Refines (shape.map g) raw' :=
  (refines.map_right g).map_left h

theorem Refines.optional (refines : read.Refines shape raw) :
    (optional read).Refines (optional shape) (Option.map raw) := by
  intro v o h
  obtain ⟨rfl, rfl⟩ | ⟨value, a, read_eq, rfl⟩ := optional_eq_ok.1 h
  · rfl
  · exact optional_eq_ok.2 (.inr ⟨value, raw a, refines v a read_eq, rfl⟩)

theorem Refines.vector (refines : read.Refines shape raw) (n : Nat) :
    (vector n read).Refines (vector n shape) (Vector.map raw) := by
  intro v values h
  obtain ⟨items, rfl, all⟩ := vector_eq_ok.1 h
  refine vector_eq_ok.2 ⟨items, rfl, ?_⟩
  rw [Vector.toList_map, List.forall₂_map_right_iff]
  exact all.imp fun v a => refines v a

/-- A case of a choice and its shape. -/
inductive Case.Refines (raw : α → γ) : Case α → Case γ → Prop where
  | plain {a : α} : Refines raw (.plain a) (.plain (raw a))
  | carrying {read : Reader α} {shape : Reader γ} :
    read.Refines shape raw → Refines raw (.carrying read) (.carrying shape)

theorem Case.Refines.content {c : Case α} {d : Case γ} (refines : c.Refines raw d) {v : Fragment}
    {a : α} (h : c.content v = .ok a) : d.content v = .ok (raw a) := by
  cases refines with
  | plain =>
    cases v with
    | null =>
      cases h
      rfl
    | _ => cases h
  | carrying refines => exact refines v a h

/-- The cases of a choice and their shapes, name by name. -/
def CasesRefine (raw : α → γ) : List (String × Case α) → List (String × Case γ) → Prop :=
  List.Forall₂ fun c d => c.1 = d.1 ∧ c.2.Refines raw d.2

theorem CasesRefine.lookup {cs : List (String × Case α)} {ds : List (String × Case γ)}
    (refine_cases : CasesRefine raw cs ds) {name : String} {c : Case α}
    (found : cs.lookup name = some c) : ∃ d, ds.lookup name = some d ∧ c.Refines raw d := by
  induction refine_cases with
  | nil => cases found
  | @cons x y _ _ related _ ih =>
    obtain ⟨key, c'⟩ := x
    obtain ⟨_, d'⟩ := y
    obtain ⟨rfl, refines⟩ := related
    by_cases same : name == key
    · rw [List.lookup_cons, same] at found ⊢
      cases found
      exact ⟨d', rfl, refines⟩
    · rw [List.lookup_cons, Bool.eq_false_iff.2 same] at found ⊢
      exact ih found

theorem CasesRefine.choice {cs : List (String × Case α)} {ds : List (String × Case γ)}
    (refine_cases : CasesRefine raw cs ds) : (choice cs).Refines (choice ds) raw := by
  intro v a h
  obtain ⟨name, rfl, found⟩ | ⟨name, content, c, rfl, found, content_eq⟩ := choice_eq_ok.1 h
  · obtain ⟨d, found, refines⟩ := refine_cases.lookup found
    cases refines
    exact choice_eq_ok.2 (.inl ⟨name, rfl, found⟩)
  · obtain ⟨d, found, refines⟩ := refine_cases.lookup found
    exact choice_eq_ok.2 (.inr ⟨name, content, d, rfl, found, refines.content content_eq⟩)

end Reader

namespace Fields

/-- The fields of a record and their shapes, one by one. -/
inductive Refines : {α γ : Type} → Fields α → Fields γ → (α → γ) → Prop where
  | none : Refines .none .none id
  | field {α β γ δ : Type} {name : String} {read : Reader α} {shape : Reader γ}
    {absent : Option α} {rest : Fields β} {rest' : Fields δ} {raw : α → γ} {raw' : β → δ} :
    read.Refines shape raw → Refines rest rest' raw' →
      Refines (.field name read absent rest) (.field name shape (absent.map raw) rest')
        (Prod.map raw raw')

variable {α γ : Type}

theorem Fills.refine {read : Reader α} {shape : Reader γ} {raw : α → γ}
    (refines : read.Refines shape raw) {vs : List Fragment} {slot slot' : Option α}
    (fills : Fills read vs slot slot') : Fills shape vs (slot.map raw) (slot'.map raw) := by
  cases fills with
  | kept => exact .kept
  | taken h => exact .taken (refines _ _ h)

theorem Refines.holds {fields : Fields α} {shapes : Fields γ} {raw : α → γ}
    (refines : fields.Refines shapes raw) {members : List (Option String × Fragment)} {a : α}
    (h : fields.Holds members a) : shapes.Holds members (raw a) := by
  induction refines generalizing members with
  | none => exact h
  | @field _ _ _ _ _ _ _ absent _ _ raw _ refines _ ih =>
    obtain ⟨value, more⟩ := a
    obtain ⟨⟨slot, fills, filled⟩, h⟩ := h
    have filled' : (slot.map raw).or (absent.map raw) = some (raw value) := by
      rw [← Option.map_or, filled]
      rfl
    exact ⟨⟨slot.map raw, fills.refine refines, filled'⟩, ih h⟩

theorem Refines.items {fields : Fields α} {shapes : Fields γ} {raw : α → γ}
    (refines : fields.Refines shapes raw) {vs : List Fragment} {a : α}
    (h : fields.items vs = .ok a) : shapes.items vs = .ok (raw a) := by
  induction refines generalizing vs with
  | none => exact h
  | field refines _ ih =>
    cases vs with
    | nil => cases h
    | cons v vs =>
      obtain ⟨value, first, h⟩ := bind_eq_ok_iff.1 h
      obtain ⟨more, rest, h⟩ := bind_eq_ok_iff.1 h
      cases h
      rw [Fields.items, refines v value first, ok_bind, ih rest]
      rfl

end Fields

namespace Reader

variable {α γ : Type}

theorem refines_record {fields : Fields α} {shapes : Fields γ} {raw : α → γ}
    (refines : fields.Refines shapes raw) : (record fields).Refines (record shapes) raw := by
  intro v a h
  obtain ⟨items, rfl, items_eq⟩ | ⟨members, rfl, holds⟩ := record_eq_ok.1 h
  · exact record_eq_ok.2 (.inl ⟨items, rfl, refines.items items_eq⟩)
  · exact record_eq_ok.2 (.inr ⟨members, rfl, refines.holds holds⟩)

theorem Refines.text {read : Reader α} {shape : Reader γ} {raw : α → γ}
    (refines : read.Refines shape raw) {text : List Char} {a : α} (h : read.text text = .ok a) :
    shape.text text = .ok (raw a) := by
  obtain ⟨ended, read_eq⟩ := text_eq_ok.1 h
  exact text_eq_ok.2 ⟨ended, refines _ _ read_eq⟩

/-- A text whose raw form is that of no value is refused. -/
theorem Refines.refused {read : Reader α} {shape : Reader γ} {raw : α → γ}
    (refines : read.Refines shape raw) {text : List Char} {r : γ} (h : shape.text text = .ok r)
    (bad : ∀ a, raw a ≠ r) : ∃ refusal, read.text text = .error refusal := by
  cases accepted : read.text text with
  | error refusal => exact ⟨refusal, rfl⟩
  | ok a =>
    have same := refines.text accepted
    rw [h] at same
    exact absurd (Except.ok.inj same).symm (bad a)

end Reader

end WhiteBox
