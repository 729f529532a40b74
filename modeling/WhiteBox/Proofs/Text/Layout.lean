import WhiteBox.Proofs.Text.Spelling

/-!
# Texts with line breaks

A report is a text of lines, or the pretty text of a value.

*Lines.*  `linesOf` cuts a text at its line breaks.  Lines that hold no line break themselves
come back from the text in which each is closed by one (`linesOf_eq`).

*Pretty texts.*  The pretty text of a value differs from its compact text by blanks between
tokens only, so it spells the same tokens (`Json.spaced_pretty`).
-/

namespace WhiteBox

/-! ## Lines -/

/-- The lines of a text, without their line breaks. -/
def lines : List Char → List (List Char)
  | [] => []
  | c :: rest =>
    if c = '\n' then [] :: lines rest
    else
      match lines rest with
      | [] => [[c]]
      | line :: more => (c :: line) :: more

/-- The text stays on one line. -/
def OneLine (text : List Char) : Prop := ∀ c ∈ text, c ≠ '\n'

-- The members of the text are tried, not all characters there are.
instance (text : List Char) : Decidable (OneLine text) := List.decidableBAll (· ≠ '\n') text

@[simp] theorem oneLine_nil : OneLine [] := nofun

@[simp] theorem oneLine_cons {c : Char} {text : List Char} :
    OneLine (c :: text) ↔ c ≠ '\n' ∧ OneLine text :=
  List.forall_mem_cons

@[simp] theorem oneLine_append {a b : List Char} :
    OneLine (a ++ b) ↔ OneLine a ∧ OneLine b := by
  simp only [OneLine, List.mem_append, or_imp, forall_and]

theorem oneLine_intercalate {separator : String} (h : OneLine separator.toList)
    {items : List String} (each : ∀ item ∈ items, OneLine item.toList) :
    OneLine (separator.intercalate items).toList := by
  induction items with
  | nil => simp [OneLine]
  | cons item items ih =>
    have rest := ih fun other member => each other (List.mem_cons_of_mem item member)
    have first := each item List.mem_cons_self
    cases items with
    | nil => simpa using first
    | cons other items =>
      rw [String.intercalate_cons_cons]
      simp only [String.toList_append, oneLine_append]
      exact ⟨⟨first, h⟩, rest⟩

theorem lines_append {line : List Char} (h : OneLine line) (rest : List Char) :
    lines (line ++ '\n' :: rest) = line :: lines rest := by
  induction line with
  | nil => rfl
  | cons c line ih =>
    have tail : lines (line ++ '\n' :: rest) = line :: lines rest :=
      ih fun d hd => h d (List.mem_cons_of_mem c hd)
    rw [List.cons_append, lines, if_neg (h c List.mem_cons_self), tail]

theorem lines_flatMap {ls : List (List Char)} (h : ∀ line ∈ ls, OneLine line) :
    lines (ls.flatMap fun line => line ++ ['\n']) = ls := by
  induction ls with
  | nil => rfl
  | cons line ls ih =>
    rw [List.flatMap_cons, List.append_assoc]
    show lines (line ++ '\n' :: ls.flatMap fun line => line ++ ['\n']) = _
    rw [lines_append (h line List.mem_cons_self),
      ih fun other member => h other (List.mem_cons_of_mem line member)]

/-- The lines of a text, as strings. -/
def linesOf (text : String) : List String := (lines text.toList).map String.ofList

theorem linesOf_eq {text : String} {ls : List String}
    (closed : text.toList = ls.flatMap fun line => line.toList ++ ['\n'])
    (each : ∀ line ∈ ls, OneLine line.toList) : linesOf text = ls := by
  have cut : lines text.toList = ls.map String.toList := by
    rw [closed, ← lines_flatMap (List.forall_mem_map.2 each), List.flatMap_map]
  rw [linesOf, cut, List.map_map]
  simp

/-! ## Pretty texts -/

namespace Json

theorem isBlank_newline (level : Nat) : ∀ c ∈ newline level, Token.IsBlank c := by
  intro c h
  obtain rfl | h := List.mem_cons.1 h
  · exact .inr (.inl rfl)
  · exact .inl (List.eq_of_mem_replicate h)

/-- A line break and blanks may stand before any token. -/
theorem spaced_newline (level : Nat) {ts : List Token} {text : List Char}
    (h : Token.Spaced ts text) : Token.Spaced ts (newline level ++ text) :=
  h.blanks_append (isBlank_newline level)

theorem spaced_blank {ts : List Token} {text : List Char} (h : Token.Spaced ts text) :
    Token.Spaced ts (' ' :: text) := by
  have blank : ∀ c ∈ [' '], Token.IsBlank c := fun _ h => .inl (List.mem_singleton.1 h)
  exact h.blanks_append blank

mutual

theorem spaced_prettyAt : ∀ (level : Nat) (v : Json), Token.Spaced v.tokens (prettyAt level v)
  | _, null => .one .null
  | _, natural n => .one (.natural n)
  | _, text s => .one (.text s)
  | _, array [] => .cons .openArray (.one .closeArray)
  | level, array (v :: rest) => by
    rw [prettyAt, List.append_assoc]
    exact .cons .openArray ((spaced_prettyItems (level + 1) (v :: rest)).append
      (spaced_newline level (.one .closeArray)))
  | _, object [] => .cons .openObject (.one .closeObject)
  | level, object (f :: rest) => by
    rw [prettyAt, List.append_assoc]
    exact .cons .openObject ((spaced_prettyFields (level + 1) (f :: rest)).append
      (spaced_newline level (.one .closeObject)))
  | level, variant name v => by
    simp only [prettyAt, List.append_assoc, List.cons_append]
    exact .cons .openObject (spaced_newline (level + 1) (.cons (.text name) (.cons .colon
      (spaced_blank ((spaced_prettyAt (level + 1) v).append
        (spaced_newline level (.one .closeObject)))))))

theorem spaced_prettyItems : ∀ (level : Nat) (items : List Json),
    Token.Spaced (itemTokens items) (prettyItems level items)
  | _, [] => .done nofun
  | level, [v] => spaced_newline level (spaced_prettyAt level v)
  | level, v :: w :: rest => by
    rw [prettyItems, List.append_assoc]
    · exact spaced_newline level ((spaced_prettyAt level v).append
        (.cons .comma (spaced_prettyItems level (w :: rest))))
    · exact nofun

theorem spaced_prettyFields : ∀ (level : Nat) (fields : List (String × Json)),
    Token.Spaced (fieldTokens fields) (prettyFields level fields)
  | _, [] => .done nofun
  | level, [(k, v)] => by
    rw [prettyFields, List.append_assoc]
    exact spaced_newline level (.cons (.text k) (.cons .colon (spaced_blank
      (spaced_prettyAt level v))))
  | level, (k, v) :: f :: rest => by
    rw [prettyFields, List.append_assoc]
    · exact spaced_newline level (.cons (.text k) (.cons .colon (spaced_blank
        ((spaced_prettyAt level v).append (.cons .comma (spaced_prettyFields level (f :: rest)))))))
    · exact nofun

end

/-- The pretty text and a line break behind it spell the tokens of the value. -/
theorem spaced_pretty (v : Json) : Token.Spaced v.tokens (v.pretty ++ ['\n']) := by
  have blank : Token.Spaced [] ['\n'] := .done fun c h => .inr (.inl (List.mem_singleton.1 h))
  have closed := (spaced_prettyAt 0 v).append blank
  rwa [List.append_nil] at closed

end Json

end WhiteBox
