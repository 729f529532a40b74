import WhiteBox.Text.Json.Fragment
import WhiteBox.BuildError

/-!
# Reading typed values

A `Reader α` takes a fragment to a value of `α` or to a `Refusal`.  The fragment is
either malformed, which says no more, or a value in it was rejected while it was
being built, and then the refusal carries the cause.  A reader goes through the
fragment in the order of the text, so the refusal is that of the first place that
is wrong.

* `Reader.natural` takes the numbers up to a largest one.
* `Reader.vector` takes arrays of a fixed length.
* `Reader.choice` takes one of several named cases.  A case without content is its
  name, or an object from its name to null; one with content is an object from its
  name to the content.
* `Reader.record` takes objects with named fields, in any order, and also arrays of
  all fields in the order of their declaration.  Other names are skipped, a name
  given twice is malformed, and a missing field has to have a value for its absence.
-/

namespace WhiteBox

/-- Why a fragment is not a value of the wanted type. -/
inductive Refusal where
  /-- It has the wrong form. -/
  | malformed
  /-- It has the right form, but the value cannot be built. -/
  | rejected (cause : BuildError)
  deriving DecidableEq, Repr

/-- Takes a fragment to a value. -/
abbrev Reader (α : Type) := Fragment → Except Refusal α

namespace Reader

variable {α β : Type}

/-- A built value, or the refusal that its cause makes. -/
def built : Except BuildError α → Except Refusal α
  | .ok a => .ok a
  | .error cause => .error (.rejected cause)

/-- Reads and then builds. -/
def check (read : Reader α) (build : α → Except BuildError β) : Reader β := fun v => do
  let a ← read v
  built (build a)

/-- Reads and then changes the value. -/
def map (f : α → β) (read : Reader α) : Reader β := fun v => do
  let a ← read v
  pure (f a)

/-- A number up to a largest one. -/
def natural (max : Nat) : Reader Nat
  | .natural n => if n ≤ max then .ok n else .error .malformed
  | _ => .error .malformed

/-- Null, or a value. -/
def optional (read : Reader α) : Reader (Option α)
  | .null => .ok none
  | v => (read v).map some

/-- An array of that many items. -/
def vector (n : Nat) (read : Reader α) : Reader (Vector α n)
  | .array items closed => do
    let values ← (items.take n).mapM read
    if h : values.toArray.size = n ∧ items.length = n ∧ closed = true then
      pure ⟨values.toArray, h.1⟩
    else throw .malformed
  | _ => .error .malformed

/-! ## One of several cases -/

/-- What a case consists of besides its name. -/
inductive Case (α : Type) where
  /-- Nothing. -/
  | plain (value : α)
  /-- A content, which is read by the given reader. -/
  | carrying (read : Reader α)

/-- The content of a case, which is null if there is none. -/
def Case.content : Case α → Reader α
  | plain value, .null => .ok value
  | plain _, _ => .error .malformed
  | carrying read, v => read v

/-- One of the named cases. -/
def choice (cases : List (String × Case α)) : Reader α
  | .text (some name) =>
    match cases.lookup name with
    | some (.plain value) => .ok value
    | _ => .error .malformed
  | .object ((some name, content) :: more) closed =>
    match cases.lookup name with
    | some c => do
      let value ← c.content content
      if more.isEmpty && closed then pure value else throw .malformed
    | none => .error .malformed
  | _ => .error .malformed

end Reader

/-! ## Records -/

/-- The fields of a record, in the order of their declaration; the record itself is
the tuple of their values. -/
inductive Fields : Type → Type 1 where
  /-- No more fields. -/
  | none : Fields Unit
  /-- A field with its name, its reader, and its value where an object leaves it out. -/
  | field {α β : Type} (name : String) (read : Reader α) (absent : Option α) (rest : Fields β) :
    Fields (α × β)

namespace Fields

/-- A value for each field that has been read. -/
@[reducible] def Slots : {α : Type} → Fields α → Type
  | _, .none => Unit
  | _, .field (α := a) _ _ _ rest => Option a × rest.Slots

/-- No field has been read. -/
def empty : {α : Type} → (fields : Fields α) → fields.Slots
  | _, .none => ()
  | _, .field _ _ _ rest => (Option.none, rest.empty)

/-- Takes one member of an object. -/
def member (name : String) (v : Fragment) :
    {α : Type} → (fields : Fields α) → fields.Slots → Except Refusal fields.Slots
  | _, .none, _ => if v.isWhole then .ok () else .error .malformed
  | _, .field (α := a) key read _ rest, slots =>
    let filled : Option a × rest.Slots := slots
    if key = name then
      match filled.1 with
      | some _ => .error .malformed
      | Option.none => (read v).map fun value => (some value, filled.2)
    else (rest.member name v filled.2).map fun others => (filled.1, others)

/-- Takes the members of an object in order. -/
def members {α : Type} (fields : Fields α) :
    List (Option String × Fragment) → fields.Slots → Except Refusal fields.Slots
  | [], slots => .ok slots
  | (some name, v) :: rest, slots => do
    let slots ← fields.member name v slots
    fields.members rest slots
  | (Option.none, _) :: _, _ => .error .malformed

/-- The record, if no field is missing. -/
def complete : {α : Type} → (fields : Fields α) → fields.Slots → Except Refusal α
  | _, .none, _ => .ok ()
  | _, .field (α := a) _ _ absent rest, slots =>
    let filled : Option a × rest.Slots := slots
    match filled.1.or absent with
    | some value => (rest.complete filled.2).map fun others => (value, others)
    | Option.none => .error .malformed

/-- Takes the items of an array in order. -/
def items : {α : Type} → Fields α → List Fragment → Except Refusal α
  | _, .none, [] => .ok ()
  | _, .none, _ :: _ => .error .malformed
  | _, .field _ _ _ _, [] => .error .malformed
  | _, .field _ read _ rest, v :: more => do
    let a ← read v
    let b ← rest.items more
    pure (a, b)

end Fields

/-- An object with the given fields, or an array of them. -/
def Reader.record {α : Type} (fields : Fields α) : Reader α
  | .array items closed => do
    let record ← fields.items items
    if closed then pure record else throw .malformed
  | .object members closed => do
    let slots ← fields.members members fields.empty
    if closed then fields.complete slots else throw .malformed
  | _ => .error .malformed

/-- Reads a whole text. -/
def Reader.text {α : Type} (read : Reader α) (text : List Char) : Except Refusal α := do
  let document := Document.ofText text
  let value ← read document.root
  if document.ended then pure value else throw .malformed

end WhiteBox
