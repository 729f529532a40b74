import WhiteBox.Text.Hex

/-!
# JSON values and how they are written

`Json` holds the values that this library writes: null, natural numbers, texts,
arrays, objects, whose fields keep their order, and named cases with a content.  A
case is written as an object from its name to its content.

There are two ways to write one.  `Json.compact` leaves no blanks.  `Json.pretty`
puts each item and each field on a line of its own, two columns further in than its
container, and a blank after the colon; an empty container stays on its line.
-/

namespace WhiteBox

/-- A JSON value. -/
inductive Json where
  /-- The value `null`. -/
  | null
  /-- A whole number without a sign. -/
  | natural (n : Nat)
  /-- A text. -/
  | text (s : String)
  /-- Items in order. -/
  | array (items : List Json)
  /-- Named fields in order. -/
  | object (fields : List (String × Json))
  /-- A named case with its content. -/
  | variant (name : String) (content : Json)

namespace Json

/-! ## Texts -/

/-- The character that follows the backslash in a short escape. -/
def shortEscape? (c : Char) : Option Char :=
  if c = '"' then some '"'
  else if c = '\\' then some '\\'
  else if c = '\x08' then some 'b'
  else if c = '\x0c' then some 'f'
  else if c = '\n' then some 'n'
  else if c = '\x0d' then some 'r'
  else if c = '\t' then some 't'
  else none

/-- How a character stands in a text: a short escape, four digits for the other
control characters, and itself. -/
def escaped (c : Char) : List Char :=
  match shortEscape? c with
  | some e => ['\\', e]
  | none =>
    if c.toNat < 0x20 then ['\\', 'u', '0', '0'] ++ Hex.ofByte (BitVec.ofNat 8 c.toNat) else [c]

/-- A text between quotes. -/
def quoted (s : String) : List Char := '"' :: (s.toList.flatMap escaped ++ ['"'])

/-! ## Without blanks -/

mutual

/-- The value without blanks. -/
def compact : Json → List Char
  | null => ['n', 'u', 'l', 'l']
  | natural n => Nat.toDigits 10 n
  | text s => quoted s
  | array items => '[' :: (compactItems items ++ [']'])
  | object fields => '\x7b' :: (compactFields fields ++ ['\x7d'])
  | variant name v => '\x7b' :: (quoted name ++ ':' :: (compact v ++ ['\x7d']))

/-- The items with commas between them. -/
def compactItems : List Json → List Char
  | [] => []
  | [v] => compact v
  | v :: rest => compact v ++ ',' :: compactItems rest

/-- The fields with commas between them. -/
def compactFields : List (String × Json) → List Char
  | [] => []
  | [(k, v)] => quoted k ++ ':' :: compact v
  | (k, v) :: rest => quoted k ++ ':' :: (compact v ++ ',' :: compactFields rest)

end

/-! ## With line breaks -/

/-- A line break and two blanks for each level. -/
def newline (level : Nat) : List Char := '\n' :: List.replicate (2 * level) ' '

mutual

/-- The value with line breaks, at a level of nesting. -/
def prettyAt (level : Nat) : Json → List Char
  | null => ['n', 'u', 'l', 'l']
  | natural n => Nat.toDigits 10 n
  | text s => quoted s
  | array [] => ['[', ']']
  | array (v :: rest) => '[' :: (prettyItems (level + 1) (v :: rest) ++ newline level ++ [']'])
  | object [] => ['\x7b', '\x7d']
  | object (f :: rest) =>
    '\x7b' :: (prettyFields (level + 1) (f :: rest) ++ newline level ++ ['\x7d'])
  | variant name v =>
    '\x7b' :: (newline (level + 1) ++ quoted name ++ ':' :: ' ' :: prettyAt (level + 1) v
      ++ newline level ++ ['\x7d'])

/-- The items on lines of their own. -/
def prettyItems (level : Nat) : List Json → List Char
  | [] => []
  | [v] => newline level ++ prettyAt level v
  | v :: rest => newline level ++ prettyAt level v ++ ',' :: prettyItems level rest

/-- The fields on lines of their own. -/
def prettyFields (level : Nat) : List (String × Json) → List Char
  | [] => []
  | [(k, v)] => newline level ++ quoted k ++ ':' :: ' ' :: prettyAt level v
  | (k, v) :: rest =>
    newline level ++ quoted k ++ ':' :: ' ' :: (prettyAt level v ++ ',' :: prettyFields level rest)

end

/-- The value with line breaks. -/
def pretty (v : Json) : List Char := prettyAt 0 v

/-- The value without blanks, as a string. -/
def compactText (v : Json) : String := String.ofList v.compact

/-- The value with line breaks, as a string. -/
def prettyText (v : Json) : String := String.ofList v.pretty

end Json

end WhiteBox
