import Mathlib.Data.List.TakeWhile
import WhiteBox.Command.Run
import WhiteBox.Proofs.Text.Hex

/-!
# The texts of seeds

A text gives the bytes of a seed if it is two digits for each byte, in either case of letters,
with blanks before and after (`SeedText.Spells`), and if there is a byte at all.  Every other text
is refused, for the first reason that `SeedText.Refused` lists.  `SeedText.parse_grammar` states
both, and that two accepted texts give the same network if and only if they are the same digits
up to letter case.

Trimming takes blanks off both ends (`SeedText.exists_trim`).  No digit is a blank, so what is
left of an accepted text is its digits (`SeedText.trim_append`).
-/

namespace WhiteBox.SeedText

/-- The text consists of blanks. -/
def Blank (text : List Char) : Prop := ∀ c ∈ text, isBlank c = true

instance (text : List Char) : Decidable (Blank text) :=
  List.decidableBAll (isBlank · = true) text

/-- The text is two digits for each byte, in either case of letters, between blanks. -/
def Spells (text : List Char) (bytes : List Byte) : Prop :=
  ∃ front digits back, text = front ++ digits ++ back ∧ Blank front ∧ Blank back
    ∧ digits.map Char.toLower = Hex.encode bytes

/-- The text is not that of a seed, and that is the first reason.  The bytes are those of the
trimmed text. -/
def Refused (text : List Char) : Fault → Prop
  | .digits fault => Hex.Refused (Hex.utf8 (trim text)) fault
  | .empty => trim text = []

/-! ## Trimming -/

theorem Blank.reverse {text : List Char} (h : Blank text) : Blank text.reverse := fun c mem =>
  h c (List.mem_reverse.1 mem)

theorem blank_takeWhile (text : List Char) : Blank (text.takeWhile isBlank) := fun _ mem =>
  List.mem_takeWhile_imp mem

/-- Trimming takes blanks off both ends. -/
theorem exists_trim (text : List Char) :
    ∃ front back, text = front ++ trim text ++ back ∧ Blank front ∧ Blank back := by
  let kept := text.dropWhile isBlank
  refine ⟨text.takeWhile isBlank, (kept.reverse.takeWhile isBlank).reverse, ?_,
    blank_takeWhile text, (blank_takeWhile kept.reverse).reverse⟩
  have kept_eq : trim text ++ (kept.reverse.takeWhile isBlank).reverse = kept := by
    rw [trim, ← List.reverse_append, List.takeWhile_append_dropWhile, List.reverse_reverse]
  rw [List.append_assoc, kept_eq, List.takeWhile_append_dropWhile]

theorem dropWhile_append {front : List Char} (blank : Blank front) {c : Char}
    (h : isBlank c = false) (rest : List Char) :
    (front ++ c :: rest).dropWhile isBlank = c :: rest := by
  rw [List.dropWhile_append_of_pos blank,
    List.dropWhile_cons_of_neg (by rw [h]; exact Bool.false_ne_true)]

/-- What contains no blank is left of the text that has blanks around it. -/
theorem trim_append {front inner back : List Char} (before : Blank front) (after : Blank back)
    (h : ∀ c ∈ inner, isBlank c = false) : trim (front ++ inner ++ back) = inner := by
  cases inner with
  | nil =>
    have blank : Blank (front ++ [] ++ back) := fun c mem =>
      (List.mem_append.1 (List.append_nil front ▸ mem)).elim (before c) (after c)
    rw [trim, List.dropWhile_eq_nil_iff.2 blank]
    rfl
  | cons c inner =>
    -- Seen from behind, the text has a first character that is no blank as well.
    cases reversed : (c :: inner).reverse with
    | nil => cases List.reverse_eq_nil_iff.1 reversed
    | cons last others =>
      have visible : isBlank last = false :=
        h last (List.mem_reverse.1 (reversed ▸ List.mem_cons_self))
      rw [trim, List.append_assoc, List.cons_append, dropWhile_append before
        (h c List.mem_cons_self), ← List.cons_append, List.reverse_append, reversed,
        dropWhile_append after.reverse visible, ← reversed, List.reverse_reverse]

/-- No digit is a blank. -/
theorem isBlank_of_isDigit {c : Char} (h : Hex.IsDigit c) : isBlank c = false := by
  have all : ∀ b : Byte, Hex.value? b ≠ none → isBlank b.char = false := by decide +kernel
  obtain ⟨b, _, rfl⟩ := Hex.utf8_of_lt h.lt
  exact all b fun none => Hex.value?_eq_none_iff.1 none h

theorem trim_of_digits {front digits back : List Char} {bytes : List Byte} (before : Blank front)
    (after : Blank back) (h : digits.map Char.toLower = Hex.encode bytes) :
    trim (front ++ digits ++ back) = digits :=
  trim_append before after fun c mem => isBlank_of_isDigit (Hex.isDigit_of_map_toLower h c mem)

/-- A text spells bytes if its trimmed form is their digits up to letter case. -/
theorem spells_iff {text : List Char} {bytes : List Byte} :
    Spells text bytes ↔ (trim text).map Char.toLower = Hex.encode bytes := by
  constructor
  · rintro ⟨front, digits, back, rfl, before, after, h⟩
    rwa [trim_of_digits before after h]
  · intro h
    obtain ⟨front, back, text_eq, before, after⟩ := exists_trim text
    exact ⟨front, trim text, back, text_eq, before, after, h⟩

theorem spells_encode (bytes : List Byte) : Spells (Hex.encode bytes) bytes := by
  have lower : ∀ n, (Hex.digit n).toLower = Hex.digit n := by decide
  have digits : ∀ c ∈ Hex.encode bytes, c.toLower = c := by
    intro c mem
    obtain ⟨b, _, digit⟩ := List.mem_flatMap.1 mem
    rcases List.mem_cons.1 digit with rfl | low
    · exact lower _
    · rw [List.mem_singleton.1 low]
      exact lower _
  have none : Blank [] := nofun
  exact ⟨[], Hex.encode bytes, [], (List.append_nil _).symm, none, none,
    (List.map_congr_left digits).trans (List.map_id' _)⟩

/-! ## Reading -/

theorem parse_eq_ok_iff {text : List Char} {bytes : List Byte} :
    parse text = .ok bytes ↔ bytes ≠ [] ∧ Spells text bytes := by
  rw [spells_iff, ← Hex.decode_utf8_eq_ok_iff, parse]
  cases Hex.decode (Hex.utf8 (trim text)) with
  | error fault => simp
  | ok read => cases read with
    | nil => simp +contextual [eq_comm]
    | cons b rest => simp +contextual [eq_comm]

theorem parse_eq_error_iff {text : List Char} {fault : Fault} :
    parse text = .error fault ↔ Refused text fault := by
  cases fault with
  | digits fault =>
    rw [Refused, ← Hex.decode_eq_error_iff, parse]
    cases Hex.decode (Hex.utf8 (trim text)) with
    | error other => simp
    | ok read => cases read <;> simp
  | empty =>
    have no_bytes : trim text = [] ↔ Hex.decode (Hex.utf8 (trim text)) = .ok [] := by
      rw [Hex.decode_utf8_eq_ok_iff]
      exact List.map_eq_nil_iff.symm
    rw [Refused, no_bytes, parse]
    cases Hex.decode (Hex.utf8 (trim text)) with
    | error other => simp
    | ok read => cases read <;> simp

/-- The network of an accepted text is that of the bytes which the text spells. -/
theorem map_toLower_trim {seed : String} {ctx : KeyContext} (h : Command.context seed = .ok ctx) :
    (trim seed.toList).map Char.toLower = Hex.encode ctx.seed := by
  rw [Command.context] at h
  cases read : parse seed.toList with
  | error fault =>
    rw [read] at h
    cases h
  | ok bytes =>
    rw [read] at h
    cases h
    exact spells_iff.1 (parse_eq_ok_iff.1 read).2

theorem context_eq_iff {seed other : String} {ctx ctx' : KeyContext}
    (accepted : Command.context seed = .ok ctx) (accepted' : Command.context other = .ok ctx') :
    ctx = ctx' ↔
      (trim seed.toList).map Char.toLower = (trim other.toList).map Char.toLower := by
  rw [map_toLower_trim accepted, map_toLower_trim accepted', Hex.encode_inj, KeyContext.mk.injEq]

/-- Which texts give the bytes of a seed, which of them give the same network, and for which
reason each other text is refused. -/
theorem parse_grammar :
    (∀ text bytes, parse text = .ok bytes ↔ bytes ≠ [] ∧ Spells text bytes) ∧
    (∀ bytes, bytes ≠ [] → ∃ text, parse text = .ok bytes) ∧
    (∀ seed other ctx ctx', Command.context seed = .ok ctx → Command.context other = .ok ctx' →
      (ctx = ctx' ↔
        (trim seed.toList).map Char.toLower = (trim other.toList).map Char.toLower)) ∧
    ∀ text fault, parse text = .error fault ↔ Refused text fault := by
  refine ⟨fun _ _ => parse_eq_ok_iff, fun bytes nonempty => ?_,
    fun _ _ _ _ => context_eq_iff, fun _ _ => parse_eq_error_iff⟩
  exact ⟨Hex.encode bytes, parse_eq_ok_iff.2 ⟨nonempty, spells_encode bytes⟩⟩

/-- A text with blanks outside of ASCII and letters of both cases, the same digits in the other
cases, and a text for each reason to refuse one. -/
theorem parse_grammar_mixed_case :
    parse "\u00a0\t0aFf\u3000".toList = .ok [0x0a, 0xff] ∧
    Command.context "\u00a0\t0aFf\u3000" = .ok ⟨[0x0a, 0xff]⟩ ∧
    Command.context "0AfF" = .ok ⟨[0x0a, 0xff]⟩ ∧
    (trim "\u00a0\t0aFf\u3000".toList).map Char.toLower =
      (trim "0AfF".toList).map Char.toLower ∧
    parse "é1".toList = .error (.digits .oddLength) ∧
    parse "16é ".toList = .error (.digits (.badDigit 0xc3 2)) ∧
    parse "1 6f".toList = .error (.digits (.badDigit 0x20 1)) ∧
    parse " \u2003".toList = .error .empty := by
  obtain ⟨accepted, _, same, refused⟩ := parse_grammar
  have blanks : Command.context "\u00a0\t0aFf\u3000" = .ok ⟨[0x0a, 0xff]⟩ := by decide
  have digits : Command.context "0AfF" = .ok ⟨[0x0a, 0xff]⟩ := by decide
  refine ⟨?_, blanks, digits, (same _ _ _ _ blanks digits).1 rfl, ?_, ?_, ?_, ?_⟩
  · exact (accepted _ _).2 ⟨by decide, ['\u00a0', '\t'], ['0', 'a', 'F', 'f'], ['\u3000'],
      rfl, by decide, by decide, by decide⟩
  · exact (refused _ (.digits .oddLength)).2 (show _ % 2 = 1 by decide)
  · exact (refused _ _).2 ⟨by decide, [0x31, 0x36], [0xa9], rfl, rfl, by decide, by decide⟩
  · exact (refused _ _).2 ⟨by decide, [0x31], [0x36, 0x66], rfl, rfl, by decide, by decide⟩
  · exact (refused _ .empty).2 (show trim _ = [] by decide)

end WhiteBox.SeedText
