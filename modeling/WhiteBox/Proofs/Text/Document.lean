import WhiteBox.Proofs.Text.Spelling
import WhiteBox.Text.Json.Fragment

/-!
# A written value is what its text holds

`Json.fragment` is a written value as a reader finds it in a text: whole and closed
everywhere.  The automaton that takes tokens one after the other brings the tokens of a value
to its fragment, put into the container around it (`Document.foldl_tokens`).  The induction is
on the value; for the items and fields of a container it goes along with what the container
holds already.

So a text that spells the value holds its fragment and nothing behind it
(`Document.ofText_eq`).
-/

namespace WhiteBox

namespace Json

mutual

/-- The value as a text holds it. -/
def fragment : Json → Fragment
  | null => .null
  | natural n => .natural n
  | text s => .text (some s)
  | array items => .array (itemFragments items) true
  | object fields => .object (fieldFragments fields) true
  | variant name v => .object [(some name, fragment v)] true

/-- The items as a text holds them. -/
def itemFragments : List Json → List Fragment
  | [] => []
  | v :: rest => fragment v :: itemFragments rest

/-- The fields as a text holds them. -/
def fieldFragments : List (String × Json) → List (Option String × Fragment)
  | [] => []
  | (k, v) :: rest => (some k, fragment v) :: fieldFragments rest

end

end Json

namespace Document

open Json

/-! ## Tokens of a value -/

/-- A place where a value may start. -/
def StartsValue (e : Expected) : Prop := e = .value ∨ e = .firstItem

/-- A place where a key may stand. -/
def StartsKey (e : Expected) : Prop := e = .key ∨ e = .firstKey

theorem step_openArray (stack : List Frame) {e : Expected} (he : StartsValue e) :
    step (.reading stack e) .openArray = .reading (.array [] :: stack) .firstItem := by
  obtain rfl | rfl := he
  · rfl
  · rfl

theorem step_openObject (stack : List Frame) {e : Expected} (he : StartsValue e) :
    step (.reading stack e) .openObject = .reading (.object [] none :: stack) .firstKey := by
  obtain rfl | rfl := he
  · rfl
  · rfl

theorem step_key (stack : List Frame) (before : List (Option String × Fragment))
    (old : Option String) {e : Expected} (he : StartsKey e) (k : String) :
    step (step (.reading (.object before old :: stack) e) (.text (some k))) .colon =
      .reading (.object before (some k) :: stack) .value := by
  obtain rfl | rfl := he
  · rfl
  · rfl

mutual

/-- The tokens of a value put it into the innermost container. -/
theorem foldl_tokens (stack : List Frame) {e : Expected} (he : StartsValue e) :
    ∀ v : Json, v.tokens.foldl step (.reading stack e) = put v.fragment stack
  | .null => by obtain rfl | rfl := he <;> rfl
  | .natural n => by obtain rfl | rfl := he <;> rfl
  | .text s => by obtain rfl | rfl := he <;> rfl
  | .array items => by
    rw [tokens, List.foldl_cons, step_openArray stack he]
    exact foldl_itemTokens stack [] (.inr rfl) items fun _ => rfl
  | .object fields => by
    rw [tokens, List.foldl_cons, step_openObject stack he]
    exact foldl_fieldTokens stack [] (.inr rfl) fields fun _ => rfl
  | .variant name v => by
    rw [tokens, List.foldl_cons, step_openObject stack he, List.foldl_cons, List.foldl_cons,
      step_key stack [] none (.inr rfl), List.foldl_append, foldl_tokens _ (.inl rfl) v]
    rfl

/-- The tokens of items, and the end of their array.  There may be none only where an array
may end. -/
theorem foldl_itemTokens (stack : List Frame) (before : List Fragment) {e : Expected}
    (he : StartsValue e) : ∀ items : List Json,
      (items = [] → e = .firstItem) →
      (itemTokens items ++ [Token.closeArray]).foldl step (.reading (.array before :: stack) e) =
        put (.array (before.reverse ++ itemFragments items) true) stack
  | [], empty => by
    rw [empty rfl, itemFragments, List.append_nil]
    rfl
  | [v], _ => by
    rw [itemTokens, List.foldl_append, foldl_tokens _ he v]
    show put (.array (v.fragment :: before).reverse true) stack = _
    rw [List.reverse_cons]
    rfl
  | v :: w :: rest, _ => by
    rw [itemTokens, List.append_assoc, List.foldl_append, foldl_tokens _ he v]
    · show (itemTokens (w :: rest) ++ [Token.closeArray]).foldl step
        (.reading (.array (v.fragment :: before) :: stack) .value) = _
      rw [foldl_itemTokens stack (v.fragment :: before) (.inl rfl) (w :: rest) nofun,
        List.reverse_cons, List.append_assoc]
      rfl
    · exact nofun

/-- The tokens of fields, and the end of their object.  There may be none only where an
object may end. -/
theorem foldl_fieldTokens (stack : List Frame) (before : List (Option String × Fragment))
    {e : Expected} (he : StartsKey e) : ∀ fields : List (String × Json),
      (fields = [] → e = .firstKey) →
      (fieldTokens fields ++ [Token.closeObject]).foldl step
          (.reading (.object before none :: stack) e) =
        put (.object (before.reverse ++ fieldFragments fields) true) stack
  | [], empty => by
    rw [empty rfl, fieldFragments, List.append_nil]
    rfl
  | [(k, v)], _ => by
    rw [fieldTokens, List.cons_append, List.cons_append, List.foldl_cons, List.foldl_cons,
      step_key stack before none he, List.foldl_append, foldl_tokens _ (.inl rfl) v]
    show put (.object ((some k, v.fragment) :: before).reverse true) stack = _
    rw [List.reverse_cons]
    rfl
  | (k, v) :: f :: rest, _ => by
    rw [fieldTokens, List.cons_append, List.cons_append, List.foldl_cons, List.foldl_cons,
      step_key stack before none he, List.append_assoc, List.foldl_append,
      foldl_tokens _ (.inl rfl) v]
    · show (fieldTokens (f :: rest) ++ [Token.closeObject]).foldl step
        (.reading (.object ((some k, v.fragment) :: before) none :: stack) .key) = _
      rw [foldl_fieldTokens stack ((some k, v.fragment) :: before) (.inl rfl) (f :: rest) nofun,
        List.reverse_cons, List.append_assoc]
      rfl
    · exact nofun

end

/-- A text that spells a value holds the value and ends with it. -/
theorem ofText_eq {v : Json} {text : List Char} (h : Token.Spaced v.tokens text) :
    ofText text = ⟨v.fragment, true⟩ := by
  rw [ofText, scan_eq_tokens h, ofTokens, foldl_tokens [] (.inl rfl) v]
  rfl

end Document

end WhiteBox
