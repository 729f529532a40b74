import Mathlib.Data.List.Chain
import Mathlib.Tactic.IntervalCases
import WhiteBox.Text.Json
import WhiteBox.Text.Json.Token

/-!
# Written values are scanned back

`Json.tokens` is what a written value consists of.  A text spells a list of tokens if it is
their spellings one after the other, with blanks before, between and behind them as it likes
(`Token.Spaced`); the compact text of a value is the case without blanks
(`Json.spaced_compact`).

Scanning such a text gives the tokens back (`Token.scan_eq_of_spaced`).  The scanner meets a
token in the mode between tokens, and leaves it in that mode again.  Only a number does not end
by itself: it ends at the first character that cannot extend it, so two numbers need a blank
between them.  In the tokens of a value no two numbers are next to each other
(`Json.isChain_tokens`).
-/

namespace WhiteBox

/-! ## Tokens of a value -/

namespace Json

mutual

/-- The tokens of a value. -/
def tokens : Json → List Token
  | null => [.null]
  | natural n => [.natural n]
  | text s => [.text (some s)]
  | array items => .openArray :: (itemTokens items ++ [.closeArray])
  | object fields => .openObject :: (fieldTokens fields ++ [.closeObject])
  | variant name v => .openObject :: .text (some name) :: .colon :: (tokens v ++ [.closeObject])

/-- The tokens of items with commas between them. -/
def itemTokens : List Json → List Token
  | [] => []
  | [v] => tokens v
  | v :: rest => tokens v ++ .comma :: itemTokens rest

/-- The tokens of fields with commas between them. -/
def fieldTokens : List (String × Json) → List Token
  | [] => []
  | [(k, v)] => .text (some k) :: .colon :: tokens v
  | (k, v) :: rest => .text (some k) :: .colon :: (tokens v ++ .comma :: fieldTokens rest)

end

end Json

namespace Token

/-! ## Texts of tokens -/

/-- A character that may stand between tokens. -/
def IsBlank (c : Char) : Prop := c = ' ' ∨ c = '\n' ∨ c = '\t' ∨ c = '\x0d'

/-- How a token of a written value is spelled. -/
inductive Spelled : Token → List Char → Prop where
  | openArray : Spelled .openArray ['[']
  | closeArray : Spelled .closeArray [']']
  | openObject : Spelled .openObject ['\x7b']
  | closeObject : Spelled .closeObject ['\x7d']
  | comma : Spelled .comma [',']
  | colon : Spelled .colon [':']
  | null : Spelled .null ['n', 'u', 'l', 'l']
  | natural (n : Nat) : Spelled (.natural n) (Nat.toDigits 10 n)
  | text (s : String) : Spelled (.text (some s)) (Json.quoted s)

/-- The text spells the tokens one after the other, with blanks around them. -/
inductive Spaced : List Token → List Char → Prop where
  /-- Blanks behind the last token. -/
  | done {blanks : List Char} : (∀ c ∈ blanks, IsBlank c) → Spaced [] blanks
  /-- Blanks before a token. -/
  | next {blanks cs text : List Char} {t : Token} {ts : List Token} :
    (∀ c ∈ blanks, IsBlank c) → Spelled t cs → Spaced ts text →
      Spaced (t :: ts) (blanks ++ (cs ++ text))

theorem Spaced.one {t : Token} {cs : List Char} (h : Spelled t cs) : Spaced [t] cs := by
  have nothing : ∀ c ∈ ([] : List Char), IsBlank c := nofun
  have text := Spaced.next nothing h (.done nothing)
  rwa [List.nil_append, List.append_nil] at text

theorem Spaced.blanks_append {blanks text : List Char} {ts : List Token}
    (hb : ∀ c ∈ blanks, IsBlank c) (h : Spaced ts text) : Spaced ts (blanks ++ text) := by
  have both {more : List Char} (hm : ∀ c ∈ more, IsBlank c) : ∀ c ∈ blanks ++ more, IsBlank c :=
    fun c h => (List.mem_append.1 h).elim (hb c) (hm c)
  cases h with
  | done hm => exact .done (both hm)
  | next hm spelled rest =>
    rw [← List.append_assoc]
    exact .next (both hm) spelled rest

theorem Spaced.append {ts us : List Token} {a b : List Char} (ha : Spaced ts a)
    (hb : Spaced us b) : Spaced (ts ++ us) (a ++ b) := by
  induction ha with
  | done blanks => exact hb.blanks_append blanks
  | next blanks spelled _ ih =>
    rw [List.append_assoc, List.append_assoc]
    exact .next blanks spelled ih

theorem Spaced.cons {t : Token} {ts : List Token} {cs text : List Char} (spelled : Spelled t cs)
    (h : Spaced ts text) : Spaced (t :: ts) (cs ++ text) :=
  (Spaced.one spelled).append h

end Token

namespace Json

mutual

/-- The compact text spells the tokens without blanks. -/
theorem spaced_compact : ∀ v : Json, Token.Spaced v.tokens v.compact
  | null => .one .null
  | natural n => .one (.natural n)
  | text s => .one (.text s)
  | array items => .cons .openArray ((spaced_compactItems items).append (.one .closeArray))
  | object fields => .cons .openObject ((spaced_compactFields fields).append (.one .closeObject))
  | variant name v =>
    .cons .openObject (.cons (.text name) (.cons .colon
      ((spaced_compact v).append (.one .closeObject))))

theorem spaced_compactItems : ∀ items : List Json,
    Token.Spaced (itemTokens items) (compactItems items)
  | [] => .done fun _ none => nomatch none
  | [v] => spaced_compact v
  | v :: w :: rest => (spaced_compact v).append (.cons .comma (spaced_compactItems (w :: rest)))

theorem spaced_compactFields : ∀ fields : List (String × Json),
    Token.Spaced (fieldTokens fields) (compactFields fields)
  | [] => .done fun _ none => nomatch none
  | [(k, v)] => .cons (.text k) (.cons .colon (spaced_compact v))
  | (k, v) :: f :: rest =>
    .cons (.text k) (.cons .colon ((spaced_compact v).append
      (.cons .comma (spaced_compactFields (f :: rest)))))

end

end Json

namespace Token

/-! ## Scanning numbers -/

/-- How much of a number has been seen behind the digits of `n`. -/
def NumberPart.ofNat (n : Nat) : NumberPart := if n = 0 then .zero false else .whole false n

theorem digitValue?_digitChar {d : Nat} (h : d < 10) : digitValue? (Nat.digitChar d) = some d := by
  revert h
  revert d
  decide

/-- The first digit of a number. -/
theorem start_digitChar {d : Nat} (h : d < 10) :
    Mode.start (Nat.digitChar d) = ([], .number (.ofNat d)) := by
  interval_cases d <;> rfl

/-- A digit that extends a number. -/
theorem step_digitChar {n d : Nat} (hn : n ≠ 0) (hd : d < 10) :
    Mode.step (.number (.ofNat n)) (Nat.digitChar d) = ([], .number (.ofNat (10 * n + d))) := by
  have more : 10 * n + d ≠ 0 := by omega
  have extended : (NumberPart.ofNat n).digit d = some (.ofNat (10 * n + d)) := by
    rw [NumberPart.ofNat, if_neg hn, NumberPart.ofNat, if_neg more]
    rfl
  simp only [Mode.step, digitValue?_digitChar hd, extended]

/-- The digits of a number bring the scanner behind the number. -/
theorem scanFrom_toDigits (n : Nat) (rest : List Char) :
    scanFrom .between (Nat.toDigits 10 n ++ rest) = scanFrom (.number (.ofNat n)) rest := by
  induction n using Nat.strongRecOn generalizing rest with
  | ind n ih =>
    by_cases small : n < 10
    · rw [Nat.toDigits_of_lt_base small]
      show (Mode.start (Nat.digitChar n)).1 ++ scanFrom (Mode.start (Nat.digitChar n)).2 rest = _
      rw [start_digitChar small]
      rfl
    · have digit : n % 10 < 10 := Nat.mod_lt n (by decide)
      have whole : 10 * (n / 10) + n % 10 = n := Nat.div_add_mod n 10
      rw [Nat.toDigits_of_base_le (by decide) (by omega), List.append_assoc, ih (n / 10) (by omega)]
      show (Mode.step (.number (.ofNat (n / 10))) (Nat.digitChar (n % 10))).1 ++
        scanFrom (Mode.step (.number (.ofNat (n / 10))) (Nat.digitChar (n % 10))).2 rest = _
      rw [step_digitChar (by omega) digit, whole]
      rfl

/-- A character that cannot extend a number. -/
def EndsNumber (c : Char) : Prop := digitValue? c = none ∧ c ≠ '.' ∧ c ≠ 'e' ∧ c ≠ 'E'

theorem scanFrom_number {n : Nat} {rest : List Char} (ends : ∀ c ∈ rest.head?, EndsNumber c) :
    scanFrom (.number (.ofNat n)) rest = .natural n :: scanFrom .between rest := by
  have finish : (NumberPart.ofNat n).finish = some (.natural n) := by
    rw [NumberPart.ofNat]
    split
    · rename_i zero
      rw [zero]
      rfl
    · rfl
  cases rest with
  | nil =>
    have last : Mode.finish (.number (.ofNat n)) = [.natural n] := by
      simp only [Mode.finish, finish]
    rw [scanFrom, scanFrom, last]
    rfl
  | cons c rest =>
    obtain ⟨digit, point, small, large⟩ := ends c rfl
    have sign : (NumberPart.ofNat n).sign c = none := by
      rw [NumberPart.ofNat]
      split
      · simp [NumberPart.sign, point, small, large]
      · simp [NumberPart.sign, point, small, large]
    have step : Mode.step (.number (.ofNat n)) c =
        (.natural n :: (Mode.start c).1, (Mode.start c).2) := by
      simp only [Mode.step, digit, sign, finish]
    show (Mode.step (.number (.ofNat n)) c).1 ++ scanFrom (Mode.step (.number (.ofNat n)) c).2 rest
      = _
    rw [step]
    rfl

/-! ## Scanning texts in quotes -/

namespace Content

theorem foldl_push (cs : List Char) (before : List Char) :
    cs.foldl push ⟨before, none, true⟩ = ⟨cs.reverse ++ before, none, true⟩ := by
  induction cs generalizing before with
  | nil => rfl
  | cons c cs ih =>
    rw [List.foldl_cons, List.reverse_cons, List.append_assoc]
    exact ih (c :: before)

theorem finish_foldl_push (s : String) : (s.toList.foldl push empty).finish = some s := by
  rw [empty, foldl_push]
  show some (String.ofList (s.toList.reverse ++ []).reverse) = some s
  rw [List.append_nil, List.reverse_reverse, String.ofList_toList]

end Content

theorem hexValue?_digit (n : Nibble) : hexValue? (Hex.digit n) = some n.toNat := by
  revert n
  decide

theorem unescape?_of_shortEscape? {c e : Char} (h : Json.shortEscape? c = some e) :
    unescape? e = some c ∧ e ≠ 'u' := by
  unfold Json.shortEscape? at h
  split_ifs at h <;> cases h <;> subst c <;> decide

theorem ne_of_shortEscape?_eq_none {c : Char} (h : Json.shortEscape? c = none) :
    c ≠ '"' ∧ c ≠ '\\' := by
  constructor
  · rintro rfl
    cases h
  · rintro rfl
    cases h

/-- Four digits below the surrogates are the character of that number. -/
theorem pushUnit_of_lt {content : Content} {u : Nat} (h : u < 0x20) :
    content.pushUnit u = content.push (Char.ofNat u) := by
  rw [Content.pushUnit, if_neg (by omega), if_neg (by omega)]

theorem toNat_high_low (b : Byte) :
    16 * (16 * 0 + (Byte.high b).toNat) + (Byte.low b).toNat = b.toNat := by
  revert b
  decide +kernel

/-- A control character is scanned back from its four digits. -/
theorem scanFrom_control (content : Content) {c : Char} (h : c.toNat < 0x20) (rest : List Char) :
    scanFrom (.text content)
        (['\\', 'u', '0', '0'] ++ Hex.ofByte (BitVec.ofNat 8 c.toNat) ++ rest) =
      scanFrom (.text (content.push c)) rest := by
  let b : Byte := BitVec.ofNat 8 c.toNat
  have value : b.toNat = c.toNat := by
    rw [BitVec.toNat_ofNat]
    omega
  have last : content.pushUnit b.toNat = content.push c := by
    rw [value, pushUnit_of_lt h, Char.ofNat_toNat]
  have first : Mode.step (.unit content 2 0) (Hex.digit (Byte.high b)) =
      ([], .unit content 1 (16 * 0 + (Byte.high b).toNat)) := by
    simp only [Mode.step, hexValue?_digit]
    rfl
  have second : Mode.step (.unit content 1 (16 * 0 + (Byte.high b).toNat))
      (Hex.digit (Byte.low b)) = ([], .text (content.push c)) := by
    simp only [Mode.step, hexValue?_digit, toNat_high_low, last]
    rfl
  -- Behind the two zeros, two digits are still missing.
  show scanFrom (.unit content 2 0)
    (Hex.digit (Byte.high b) :: Hex.digit (Byte.low b) :: rest) = _
  rw [scanFrom, first, scanFrom, second]
  rfl

/-- A character is scanned back from the way it stands in a text. -/
theorem scanFrom_escaped (content : Content) (c : Char) (rest : List Char) :
    scanFrom (.text content) (Json.escaped c ++ rest) = scanFrom (.text (content.push c)) rest := by
  rw [Json.escaped]
  cases short : Json.shortEscape? c with
  | some e =>
    obtain ⟨back, unicode⟩ := unescape?_of_shortEscape? short
    have step : Mode.step (.escape content) e = ([], .text (content.push c)) := by
      simp only [Mode.step, if_neg unicode, back]
    show (Mode.step (.escape content) e).1 ++ scanFrom (Mode.step (.escape content) e).2 rest = _
    rw [step]
    rfl
  | none =>
    obtain ⟨quote, backslash⟩ := ne_of_shortEscape?_eq_none short
    by_cases control : c.toNat < 0x20
    · simp only [if_pos control]
      exact scanFrom_control content control rest
    · have step : Mode.step (.text content) c = ([], .text (content.push c)) := by
        simp only [Mode.step, if_neg quote, if_neg backslash, if_neg control]
      simp only [if_neg control]
      show (Mode.step (.text content) c).1 ++ scanFrom (Mode.step (.text content) c).2 rest = _
      rw [step]
      rfl

theorem scanFrom_quoted (s : String) (rest : List Char) :
    scanFrom .between (Json.quoted s ++ rest) = .text (some s) :: scanFrom .between rest := by
  have inner (cs : List Char) (content : Content) (rest : List Char) :
      scanFrom (.text content) (cs.flatMap Json.escaped ++ rest) =
        scanFrom (.text (cs.foldl Content.push content)) rest := by
    induction cs generalizing content with
    | nil => rfl
    | cons c cs ih =>
      rw [List.flatMap_cons, List.append_assoc, scanFrom_escaped, ih]
      rfl
  show scanFrom (.text .empty) (s.toList.flatMap Json.escaped ++ ['"'] ++ rest) = _
  rw [List.append_assoc, inner]
  show .text (s.toList.foldl Content.push .empty).finish :: scanFrom .between rest = _
  rw [Content.finish_foldl_push]

/-! ## Scanning tokens -/

theorem scanFrom_blanks {blanks : List Char} (h : ∀ c ∈ blanks, IsBlank c) (rest : List Char) :
    scanFrom .between (blanks ++ rest) = scanFrom .between rest := by
  induction blanks with
  | nil => rfl
  | cons c blanks ih =>
    have skipped : scanFrom .between (c :: (blanks ++ rest)) =
        scanFrom .between (blanks ++ rest) := by
      obtain rfl | rfl | rfl | rfl := h c List.mem_cons_self
      · rfl
      · rfl
      · rfl
      · rfl
    exact skipped.trans (ih fun b hb => h b (List.mem_cons_of_mem c hb))

theorem scanFrom_spelled {t : Token} {cs rest : List Char} (h : Spelled t cs)
    (ends : ∀ n, t = .natural n → ∀ c ∈ rest.head?, EndsNumber c) :
    scanFrom .between (cs ++ rest) = t :: scanFrom .between rest := by
  cases h with
  | natural n => rw [scanFrom_toDigits, scanFrom_number (ends n rfl)]
  | text s => exact scanFrom_quoted s rest
  | openArray => rfl
  | closeArray => rfl
  | openObject => rfl
  | closeObject => rfl
  | comma => rfl
  | colon => rfl
  | null => rfl

/-- Two tokens that need no blank between them. -/
def Apart : Token → Token → Prop
  | .natural _, .natural _ => False
  | _, _ => True

theorem endsNumber_of_isBlank {c : Char} (h : IsBlank c) : EndsNumber c := by
  unfold EndsNumber
  obtain rfl | rfl | rfl | rfl := h
  · decide
  · decide
  · decide
  · decide

/-- What begins with a token that is no number ends a number. -/
theorem endsNumber_of_spelled {t : Token} {cs : List Char} (h : Spelled t cs)
    (other : ∀ n, t ≠ .natural n) (rest : List Char) : ∀ c ∈ (cs ++ rest).head?, EndsNumber c := by
  unfold EndsNumber
  intro c hc
  cases h with
  | natural n => exact absurd rfl (other n)
  | text s => cases hc; decide
  | openArray => cases hc; decide
  | closeArray => cases hc; decide
  | openObject => cases hc; decide
  | closeObject => cases hc; decide
  | comma => cases hc; decide
  | colon => cases hc; decide
  | null => cases hc; decide

theorem endsNumber_of_spaced {ts : List Token} {text : List Char} (h : Spaced ts text)
    (other : ∀ t ∈ ts.head?, ∀ n, t ≠ .natural n) : ∀ c ∈ text.head?, EndsNumber c := by
  have first {blanks : List Char} (hb : ∀ c ∈ blanks, IsBlank c) (rest : List Char)
      (hr : ∀ c ∈ rest.head?, EndsNumber c) : ∀ c ∈ (blanks ++ rest).head?, EndsNumber c := by
    cases blanks with
    | nil => exact hr
    | cons b blanks =>
      intro c hc
      cases hc
      exact endsNumber_of_isBlank (hb _ List.mem_cons_self)
  cases h with
  | done hb =>
    have none := first hb [] nofun
    rwa [List.append_nil] at none
  | next hb spelled rest => exact first hb _ (endsNumber_of_spelled spelled (other _ rfl) _)

/-- A text that spells tokens is scanned to these tokens. -/
theorem scan_eq_of_spaced {ts : List Token} {text : List Char} (h : Spaced ts text)
    (apart : ts.IsChain Apart) : scan text = ts := by
  rw [scan]
  induction h with
  | done blanks =>
    have ended := scanFrom_blanks blanks []
    rwa [List.append_nil] at ended
  | @next blanks cs text t ts hb spelled rest ih =>
    obtain ⟨beside, apart⟩ := List.isChain_cons.1 apart
    rw [scanFrom_blanks hb, scanFrom_spelled spelled, ih apart]
    rintro n rfl
    refine endsNumber_of_spaced rest fun u hu m hm => ?_
    subst hm
    exact beside _ hu

theorem isChain_cons {t : Token} {ts : List Token} (other : ∀ n, t ≠ .natural n)
    (h : ts.IsChain Apart) : (t :: ts).IsChain Apart := by
  refine List.isChain_cons.2 ⟨fun u _ => ?_, h⟩
  cases t with
  | natural n => exact absurd rfl (other n)
  | _ => trivial

/-- A token that is no number stands apart from what is before it. -/
theorem isChain_append_cons {u : Token} {ts us : List Token} (hts : ts.IsChain Apart)
    (other : ∀ n, u ≠ .natural n) (hus : us.IsChain Apart) : (ts ++ u :: us).IsChain Apart := by
  refine List.isChain_append.2 ⟨hts, isChain_cons other hus, fun t _ v hv => ?_⟩
  cases hv
  cases u with
  | natural n => exact absurd rfl (other n)
  | _ => cases t <;> trivial

end Token

namespace Json

open Token in
mutual

/-- No two numbers of a value are next to each other. -/
theorem isChain_tokens : ∀ v : Json, v.tokens.IsChain Token.Apart
  | null => .singleton _
  | natural _ => .singleton _
  | text _ => .singleton _
  | array items => isChain_cons nofun (isChain_append_cons (isChain_itemTokens items) nofun .nil)
  | object fields =>
    isChain_cons nofun (isChain_append_cons (isChain_fieldTokens fields) nofun .nil)
  | variant _ v =>
    isChain_cons nofun (isChain_cons nofun (isChain_cons nofun
      (isChain_append_cons (isChain_tokens v) nofun .nil)))

theorem isChain_itemTokens : ∀ items : List Json, (itemTokens items).IsChain Token.Apart
  | [] => .nil
  | [v] => isChain_tokens v
  | v :: w :: rest =>
    isChain_append_cons (isChain_tokens v) nofun (isChain_itemTokens (w :: rest))

theorem isChain_fieldTokens : ∀ fields : List (String × Json),
    (fieldTokens fields).IsChain Token.Apart
  | [] => .nil
  | [(_, v)] => isChain_cons nofun (isChain_cons nofun (isChain_tokens v))
  | (_, v) :: f :: rest =>
    isChain_cons nofun (isChain_cons nofun
      (isChain_append_cons (isChain_tokens v) nofun (isChain_fieldTokens (f :: rest))))

end

/-- A text that spells a value with blanks anywhere between its tokens is scanned to its
tokens. -/
theorem scan_eq_tokens {v : Json} {text : List Char} (h : Token.Spaced v.tokens text) :
    Token.scan text = v.tokens :=
  Token.scan_eq_of_spaced h v.isChain_tokens

end Json

end WhiteBox
