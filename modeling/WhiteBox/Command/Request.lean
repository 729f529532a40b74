import WhiteBox.Command.Options
import WhiteBox.Role

/-!
# What a run is asked for

`Request.ofArgs?` takes the arguments of a run to a `Request`.  Arguments that no
command accepts have no request; numbers are only checked to be numbers, and the
seed is still a text.
-/

namespace WhiteBox.Command

/-- Which table is asked for. -/
inductive TableKind where
  /-- The table of an XOR gate. -/
  | xor
  /-- A table of a mask of the state. -/
  | mask
  /-- A table of an inverse mixing bijection. -/
  | mixingInverse
  deriving DecidableEq, Repr

/-- A wire named by plain numbers that nobody has checked. -/
inductive WireRequest where
  /-- Output of an input or output mask. -/
  | mask (position subPosition : Nat) (surface : Surface)
  /-- Output of a round table. -/
  | tyi (round position subPosition : Nat)
  /-- Output of an inverse mixing table. -/
  | mbInverse (round position subPosition : Nat)
  /-- Running accumulator of an XOR chain. -/
  | xor (round position gate : Nat) (surface : Surface)
  /-- Output of half a round. -/
  | round (round position : Nat) (surface : Surface)
  deriving DecidableEq, Repr

/-- What a run is asked for. -/
inductive Request where
  /-- The version of the program. -/
  | version
  /-- The label and the shuffle of a wire. -/
  | encoding (seed : String) (json : Bool) (wire : WireRequest)
  /-- The entries of a table. -/
  | table (seed : String) (kind : TableKind) (round position : Nat) (json : Bool)
  /-- A check of a network; without a seed one is drawn. -/
  | check (seed : Option String) (samples : Nat)
  deriving DecidableEq, Repr

/-! ## Words for surfaces and tables -/

/-- The surface that a word names. -/
def surface? (word : String) : Option Surface :=
  if word = "inside" then some .inside
  else if word = "outside" then some .outside
  else none

/-- The table that a word names. -/
def tableKind? (word : String) : Option TableKind :=
  if word = "xor" then some .xor
  else if word = "mask" then some .mask
  else if word = "mb-inverse" then some .mixingInverse
  else none

/-- The surface that the options name. -/
def Matched.surface? (m : Matched) : Option Surface := m.value? "surface" >>= Command.surface?

/-! ## Commands -/

/-- A command that knows only options with values. -/
def valued (names : List String) : Grammar := ⟨names.map (·, .value), []⟩

/-- The options and subcommands of the command that shows an encoding. -/
def encodingGrammar : Grammar :=
  ⟨[("seed-hex", .value), ("json", .switch)], ["mask", "tyi", "mb-inverse", "xor", "round"]⟩

/-- The options of the command that shows a table. -/
def tableGrammar : Grammar :=
  ⟨[("seed-hex", .value), ("kind", .value), ("round", .value), ("position", .value),
    ("json", .switch)], []⟩

/-- The wire that a subcommand and its arguments name. -/
def wire? (command : String) (args : List String) : Option WireRequest :=
  if command = "mask" then do
    let m ← (valued ["position", "sub-position", "surface"]).read args
    pure (.mask (← m.number? "position") (← m.number? "sub-position") (← m.surface?))
  else if command = "tyi" then do
    let m ← (valued ["round", "position", "sub-position"]).read args
    pure (.tyi (← m.number? "round") (← m.number? "position") (← m.number? "sub-position"))
  else if command = "mb-inverse" then do
    let m ← (valued ["round", "position", "sub-position"]).read args
    pure (.mbInverse (← m.number? "round") (← m.number? "position") (← m.number? "sub-position"))
  else if command = "xor" then do
    let m ← (valued ["round", "position", "gate", "surface"]).read args
    pure (.xor (← m.number? "round") (← m.number? "position") (← m.number? "gate") (← m.surface?))
  else if command = "round" then do
    let m ← (valued ["round", "position", "surface"]).read args
    pure (.round (← m.number? "round") (← m.number? "position") (← m.surface?))
  else none

/-- Arguments of the command that shows an encoding. -/
def encoding? (args : List String) : Option Request := do
  let m ← encodingGrammar.read args
  let (command, args) ← m.command
  let wire ← wire? command args
  pure (.encoding (← m.value? "seed-hex") (m.switch "json") wire)

/-- Arguments of the command that shows a table. -/
def table? (args : List String) : Option Request := do
  let m ← tableGrammar.read args
  let kind ← m.value? "kind" >>= tableKind?
  pure (.table (← m.value? "seed-hex") kind (← m.numberOr? "round" 0) (← m.numberOr? "position" 0)
    (m.switch "json"))

/-- Arguments of the command that checks a network. -/
def check? (args : List String) : Option Request := do
  let m ← (valued ["seed-hex", "samples"]).read args
  pure (.check (m.value? "seed-hex") (← m.numberOr? "samples" 16))

/-- Whether an argument asks for the version. -/
def isVersion (arg : String) : Bool :=
  arg == "--version" || match arg.toList with
    | '-' :: 'V' :: _ => true
    | _ => false

/-- What the arguments of a run ask for. -/
def Request.ofArgs? : List String → Option Request
  | [] => none
  | command :: args =>
    if isVersion command then some .version
    else if command = "encoding" then encoding? args
    else if command = "table" then table? args
    else if command = "check" then check? args
    else none

/-- What is shown where the arguments ask for nothing. -/
def Request.usage : String :=
  "usage: wbaes encoding --seed-hex HEX [--json] ROLE OPTIONS\n"
    ++ "       wbaes table --seed-hex HEX --kind KIND [--round N] [--position N] [--json]\n"
    ++ "       wbaes check [--seed-hex HEX] [--samples N]\n"
    ++ "       wbaes --version\n"

end WhiteBox.Command
