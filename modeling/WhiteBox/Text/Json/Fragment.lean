import WhiteBox.Text.Json.Token

/-!
# What a text holds of JSON

A reader that fails has to name the first failure in the order of the text, even if
the text stops being JSON further on.  So a text is not first checked and then read.
It is turned into a `Document`, which holds everything up to the place where the
text goes wrong: a value that is not there is `Fragment.broken`, and a container
whose end was never reached is not `closed`.

`Document.ofTokens` runs an automaton with a stack of the containers that are still
open.  Each token puts a value into the innermost container, opens or closes one,
or is a comma or colon between.  The first token that does not fit closes every
container as it stands.
-/

namespace WhiteBox

/-- As much of a value as a text holds. -/
inductive Fragment where
  /-- The value `null`. -/
  | null
  /-- The value `true` or `false`. -/
  | boolean
  /-- A number without sign, fraction and exponent. -/
  | natural (n : Nat)
  /-- Any other number. -/
  | number
  /-- A text, or `none` when it holds half of a surrogate pair. -/
  | text (s : Option String)
  /-- Items in order, and whether the closing bracket was reached. -/
  | array (items : List Fragment) (closed : Bool)
  /-- Keys and values in order, and whether the closing bracket was reached. -/
  | object (members : List (Option String × Fragment)) (closed : Bool)
  /-- The text goes wrong before a value. -/
  | broken

/-- What a whole text holds. -/
structure Document where
  /-- Its value. -/
  root : Fragment
  /-- Whether nothing but blanks follows the value. -/
  ended : Bool

namespace Fragment

mutual

/-- Whether the fragment is a whole value. -/
def isWhole : Fragment → Bool
  | null | boolean | natural _ | number | text _ => true
  | array items closed => closed && areWhole items
  | object members closed => closed && haveWhole members
  | broken => false

/-- Whether all fragments are whole values. -/
def areWhole : List Fragment → Bool
  | [] => true
  | v :: rest => isWhole v && areWhole rest

/-- Whether all keys have whole values. -/
def haveWhole : List (Option String × Fragment) → Bool
  | [] => true
  | (_, v) :: rest => isWhole v && haveWhole rest

end

end Fragment

namespace Document

/-! ## The automaton -/

/-- A container that is still open, with what it holds so far, last one first. -/
inductive Frame where
  /-- An array. -/
  | array (items : List Fragment)
  /-- An object, and the key whose value comes next. -/
  | object (members : List (Option String × Fragment)) (key : Option String)

/-- What the next token has to be. -/
inductive Expected where
  /-- The start of a value. -/
  | value
  /-- The first item of an array, or its end. -/
  | firstItem
  /-- The first key of an object, or its end. -/
  | firstKey
  /-- A key. -/
  | key
  /-- The colon after a key. -/
  | colon
  /-- A comma, or the end of the innermost container. -/
  | separator
  deriving DecidableEq, Repr

/-- How far the text has been read. -/
inductive Progress where
  /-- The value is not complete. -/
  | reading (stack : List Frame) (expected : Expected)
  /-- The value is settled. -/
  | settled (document : Document)

/-- The containers as they stand, around a value that may be there. -/
def unclosed : List Frame → Option Fragment → Fragment
  | [], v => v.getD .broken
  | .array items :: rest, v =>
    unclosed rest (some (.array (v.toList.reverse ++ items).reverse false))
  | .object members key :: rest, v =>
    unclosed rest (some (.object ((v.toList.map (key, ·)) ++ members).reverse false))

/-- The text goes wrong here. -/
def stop (stack : List Frame) : Expected → Progress
  | .value => .settled ⟨unclosed stack (some .broken), false⟩
  | _ => .settled ⟨unclosed stack none, false⟩

/-- Puts a whole value into the innermost container. -/
def put (v : Fragment) : List Frame → Progress
  | [] => .settled ⟨v, true⟩
  | .array items :: rest => .reading (.array (v :: items) :: rest) .separator
  | .object members key :: rest => .reading (.object ((key, v) :: members) none :: rest) .separator

/-- Closes the innermost container. -/
def close : List Frame → Progress
  | .array items :: rest => put (.array items.reverse true) rest
  | .object members _ :: rest => put (.object members.reverse true) rest
  | [] => stop [] .value

/-- A token where a value may start. -/
def startValue (stack : List Frame) : Token → Option Progress
  | .null => some (put .null stack)
  | .boolean => some (put .boolean stack)
  | .natural n => some (put (.natural n) stack)
  | .number => some (put .number stack)
  | .text s => some (put (.text s) stack)
  | .openArray => some (.reading (.array [] :: stack) .firstItem)
  | .openObject => some (.reading (.object [] none :: stack) .firstKey)
  | .closeArray | .closeObject | .comma | .colon | .junk => none

/-- A token between the values of the innermost container. -/
def separate (stack : List Frame) : Token → Option Progress
  | .comma =>
    match stack with
    | .array _ :: _ => some (.reading stack .value)
    | .object _ _ :: _ => some (.reading stack .key)
    | [] => none
  | .closeArray =>
    match stack with
    | .array _ :: _ => some (close stack)
    | _ => none
  | .closeObject =>
    match stack with
    | .object _ _ :: _ => some (close stack)
    | _ => none
  | _ => none

/-- A token where a key stands. -/
def startKey (stack : List Frame) : Token → Option Progress
  | .text key =>
    match stack with
    | .object members _ :: rest => some (.reading (.object members key :: rest) .colon)
    | _ => none
  | _ => none

/-- The progress that a token makes, if it fits. -/
def advance (stack : List Frame) : Expected → Token → Option Progress
  | .value, token => startValue stack token
  | .firstItem, .closeArray => some (close stack)
  | .firstItem, token => startValue stack token
  | .firstKey, .closeObject => some (close stack)
  | .firstKey, token => startKey stack token
  | .key, token => startKey stack token
  | .colon, .colon => some (.reading stack .value)
  | .colon, _ => none
  | .separator, token => separate stack token

/-- Takes one token. -/
def step : Progress → Token → Progress
  | .reading stack expected, token => (advance stack expected token).getD (stop stack expected)
  | .settled document, _ => .settled ⟨document.root, false⟩

/-- What the end of the text makes of the progress. -/
def finish : Progress → Document
  | .settled document => document
  | .reading stack expected =>
    match stop stack expected with
    | .settled document => document
    | .reading _ _ => ⟨.broken, false⟩

/-- What the tokens of a text hold. -/
def ofTokens (tokens : List Token) : Document := finish (tokens.foldl step (.reading [] .value))

/-- What a text holds. -/
def ofText (text : List Char) : Document := ofTokens (Token.scan text)

end Document

end WhiteBox
