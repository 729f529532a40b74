/-!
# Tokens of JSON

`Token.scan` cuts a text into tokens, one character after the other.  The scanner
is in one of a few modes; `Mode.step` takes a character to the tokens that it
completes and the next mode.  A number is complete only when the next character
cannot extend it, so that character then starts afresh.

At the first character that fits no token the scanner emits `Token.junk` and stops
for good.

Numbers without sign, fraction and exponent carry their value.  All others are
`Token.number`: no reader of this library accepts them, so only their grammar
matters.  A text in quotes carries its characters, or `none` when it contains half
of a surrogate pair: such a text may be skipped but never be read.
-/

namespace WhiteBox

/-- A smallest meaningful piece of JSON. -/
inductive Token where
  /-- An opening square bracket. -/
  | openArray
  /-- A closing square bracket. -/
  | closeArray
  /-- An opening curly bracket. -/
  | openObject
  /-- A closing curly bracket. -/
  | closeObject
  /-- A comma. -/
  | comma
  /-- A colon. -/
  | colon
  /-- The word `null`. -/
  | null
  /-- The word `true` or `false`. -/
  | boolean
  /-- A number without sign, fraction and exponent. -/
  | natural (n : Nat)
  /-- Any other number. -/
  | number
  /-- A text in quotes, or `none` when it holds half of a surrogate pair. -/
  | text (s : Option String)
  /-- The text stops being made of tokens here. -/
  | junk
  deriving DecidableEq, Repr

namespace Token

/-! ## Modes of the scanner -/

/-- How much of a number has been seen. -/
inductive NumberPart where
  /-- A minus sign. -/
  | minus
  /-- A single zero before the point. -/
  | zero (negative : Bool)
  /-- Digits before the point, the first of them not zero. -/
  | whole (negative : Bool) (value : Nat)
  /-- The point. -/
  | point
  /-- Digits after the point. -/
  | fraction
  /-- The letter of the exponent. -/
  | exponent
  /-- The sign of the exponent. -/
  | exponentSign
  /-- Digits of the exponent. -/
  | exponentDigits
  deriving DecidableEq, Repr

/-- The characters of a text so far, last one first. -/
structure Content where
  /-- The characters, last one first. -/
  chars : List Char
  /-- The first half of a surrogate pair that waits for its second half. -/
  lead : Option Nat
  /-- Whether every surrogate before that is one of a pair. -/
  paired : Bool
  deriving DecidableEq, Repr

/-- What the scanner is in the middle of. -/
inductive Mode where
  /-- Nothing. -/
  | between
  /-- A word, whose remaining characters are given. -/
  | word (rest : List Char) (token : Token)
  /-- A number. -/
  | number (part : NumberPart)
  /-- A text in quotes. -/
  | text (content : Content)
  /-- The character after a backslash. -/
  | escape (content : Content)
  /-- The four digits of a code unit, of which some are still missing. -/
  | unit (content : Content) (missing : Nat) (value : Nat)
  /-- The text has stopped being JSON. -/
  | stopped

/-! ## Texts in quotes -/

namespace Content

/-- No character yet. -/
def empty : Content := ⟨[], none, true⟩

/-- Adds a character. -/
def push (t : Content) (c : Char) : Content := ⟨c :: t.chars, none, t.paired && t.lead.isNone⟩

/-- Adds a code unit; two halves of a surrogate pair make one character. -/
def pushUnit (t : Content) (u : Nat) : Content :=
  if 0xD800 ≤ u ∧ u ≤ 0xDBFF then ⟨t.chars, some u, t.paired && t.lead.isNone⟩
  else if 0xDC00 ≤ u ∧ u ≤ 0xDFFF then
    match t.lead with
    | some l =>
      ⟨Char.ofNat (0x10000 + (l - 0xD800) * 0x400 + (u - 0xDC00)) :: t.chars, none, t.paired⟩
    | none => ⟨t.chars, none, false⟩
  else t.push (Char.ofNat u)

/-- The characters in order, if all surrogates are paired. -/
def finish (t : Content) : Option String :=
  if t.paired && t.lead.isNone then some (String.ofList t.chars.reverse) else none

end Content

/-- The character that a letter stands for after a backslash. -/
def unescape? (c : Char) : Option Char :=
  if c = '"' then some '"'
  else if c = '\\' then some '\\'
  else if c = '/' then some '/'
  else if c = 'b' then some '\x08'
  else if c = 'f' then some '\x0c'
  else if c = 'n' then some '\n'
  else if c = 'r' then some '\x0d'
  else if c = 't' then some '\t'
  else none

/-- The value of a hexadecimal digit. -/
def hexValue? (c : Char) : Option Nat :=
  if '0' ≤ c ∧ c ≤ '9' then some (c.toNat - 0x30)
  else if 'a' ≤ c ∧ c ≤ 'f' then some (c.toNat - 0x57)
  else if 'A' ≤ c ∧ c ≤ 'F' then some (c.toNat - 0x37)
  else none

/-! ## Numbers -/

/-- The value of a decimal digit. -/
def digitValue? (c : Char) : Option Nat :=
  if '0' ≤ c ∧ c ≤ '9' then some (c.toNat - 0x30) else none

namespace NumberPart

/-- How a digit extends a number. -/
def digit (d : Nat) : NumberPart → Option NumberPart
  | minus => some (if d = 0 then zero true else whole true d)
  | zero _ => none
  | whole negative value => some (whole negative (10 * value + d))
  | point => some fraction
  | fraction => some fraction
  | exponent => some exponentDigits
  | exponentSign => some exponentDigits
  | exponentDigits => some exponentDigits

/-- How any other character extends a number. -/
def sign (c : Char) : NumberPart → Option NumberPart
  | zero _ | whole _ _ =>
    if c = '.' then some point else if c = 'e' ∨ c = 'E' then some exponent else none
  | fraction => if c = 'e' ∨ c = 'E' then some exponent else none
  | exponent => if c = '+' ∨ c = '-' then some exponentSign else none
  | minus | point | exponentSign | exponentDigits => none

/-- The number, if it may end here. -/
def finish : NumberPart → Option Token
  | zero false => some (.natural 0)
  | whole false value => some (.natural value)
  | zero true | whole true _ | fraction | exponentDigits => some .number
  | minus | point | exponent | exponentSign => none

end NumberPart

/-! ## The scanner -/

/-- The tokens that a character completes when nothing else is going on, and the
mode after it. -/
def Mode.start (c : Char) : List Token × Mode :=
  if c = ' ' ∨ c = '\n' ∨ c = '\t' ∨ c = '\x0d' then ([], .between)
  else if c = '[' then ([.openArray], .between)
  else if c = ']' then ([.closeArray], .between)
  else if c = '\x7b' then ([.openObject], .between)
  else if c = '\x7d' then ([.closeObject], .between)
  else if c = ',' then ([.comma], .between)
  else if c = ':' then ([.colon], .between)
  else if c = '"' then ([], .text .empty)
  else if c = '-' then ([], .number .minus)
  else if c = 'n' then ([], .word ['u', 'l', 'l'] .null)
  else if c = 't' then ([], .word ['r', 'u', 'e'] .boolean)
  else if c = 'f' then ([], .word ['a', 'l', 's', 'e'] .boolean)
  else
    match digitValue? c with
    | some 0 => ([], .number (.zero false))
    | some d => ([], .number (.whole false d))
    | none => ([.junk], .stopped)

/-- The tokens that a character completes, and the mode after it. -/
def Mode.step : Mode → Char → List Token × Mode
  | between, c => start c
  | word [] token, c => (token :: (start c).1, (start c).2)
  | word [last] token, c => if c = last then ([token], between) else ([.junk], stopped)
  | word (next :: rest) token, c =>
    if c = next then ([], word rest token) else ([.junk], stopped)
  | number part, c =>
    match (match digitValue? c with
      | some d => part.digit d
      | none => part.sign c) with
    | some part => ([], number part)
    | none =>
      match part.finish, digitValue? c with
      | some token, none => (token :: (start c).1, (start c).2)
      | _, _ => ([.junk], stopped)
  | text content, c =>
    if c = '"' then ([.text content.finish], between)
    else if c = '\\' then ([], escape content)
    else if c.toNat < 0x20 then ([.junk], stopped)
    else ([], text (content.push c))
  | escape content, c =>
    if c = 'u' then ([], unit content 4 0)
    else
      match unescape? c with
      | some c => ([], text (content.push c))
      | none => ([.junk], stopped)
  | unit content missing value, c =>
    match hexValue? c with
    | some d =>
      let value := 16 * value + d
      if missing ≤ 1 then ([], text (content.pushUnit value))
      else ([], unit content (missing - 1) value)
    | none => ([.junk], stopped)
  | stopped, _ => ([], stopped)

/-- The tokens that the end of the text completes. -/
def Mode.finish : Mode → List Token
  | between => []
  | word [] token => [token]
  | number part =>
    match part.finish with
    | some token => [token]
    | none => [.junk]
  | word (_ :: _) _ | text _ | escape _ | unit _ _ _ => [.junk]
  | stopped => []

/-- The tokens of the rest of a text. -/
def scanFrom : Mode → List Char → List Token
  | mode, [] => mode.finish
  | mode, c :: rest => (mode.step c).1 ++ scanFrom (mode.step c).2 rest

/-- The tokens of a text. -/
def scan (text : List Char) : List Token := scanFrom .between text

end Token

end WhiteBox
