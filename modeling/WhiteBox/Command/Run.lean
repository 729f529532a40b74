import WhiteBox.Command.Request
import WhiteBox.Command.SeedText
import WhiteBox.Exchange
import WhiteBox.NetworkCheck
import WhiteBox.Text.Describe

/-!
# What a run answers

`Command.run` takes a request to an `Outcome`: an exit code and what is written to
the two outputs.  It is a function of the request and of thirty-two random bytes,
which only a check without a seed uses.

A failure is a `Trouble`, which knows its cause; `Trouble.report` is its text.  A
failure with a context shows the context first and the cause below it.
-/

namespace WhiteBox.Command

/-- The end of a run. -/
structure Outcome where
  /-- The exit code. -/
  code : Nat
  /-- What is written to the standard output. -/
  stdout : String
  /-- What is written to the error output. -/
  stderr : String
  deriving DecidableEq, Repr

/-! ## Failures -/

/-- Why a run fails. -/
inductive Trouble where
  /-- The text of the seed is no seed. -/
  | seed (fault : SeedText.Fault)
  /-- A coordinate or a matrix is refused. -/
  | build (cause : BuildError)
  /-- The mask table is refused. -/
  | maskTable (cause : BuildError)
  /-- The inverse mixing table is refused. -/
  | mixingInverseTable (cause : BuildError)
  /-- The network fails a check. -/
  | check (failure : CheckFailure)
  deriving DecidableEq, Repr

/-- The texts of a failed check: the failure, and the cause below it if there is
one. -/
def checkTexts : CheckFailure → String × Option String
  | .build cause => (cause.message, none)
  | .blockMaskBuild position cause =>
    (s!"block mask encoding at {position.text}", some cause.message)
  | .blockMask position surface byte =>
    (s!"block mask encoding at {position.text} ({surface.name}) does not round-trip 0x"
      ++ Hex.text [byte], none)
  | .wordStep round position surface =>
    (s!"word step encoding at round {round.text}, byte {position.text} ({surface.name}) "
      ++ "does not round-trip", none)
  | .xorGate round column =>
    (s!"XOR gate at round {round.text}, column {column} does not cancel its input encodings", none)

/-- The texts of a failure: the failure, and the cause below it if there is one. -/
def Trouble.texts : Trouble → String × Option String
  | seed (.digits fault) => ("decode seed hex", some (SeedText.digitsMessage fault))
  | seed .empty => ("seed must not be empty", none)
  | build cause => (cause.message, none)
  | maskTable cause => ("build mask table", some cause.message)
  | mixingInverseTable cause => ("build MB⁻¹ table", some cause.message)
  | check failure => checkTexts failure

/-- The text that reports a failure. -/
def Trouble.report (t : Trouble) : String :=
  match t.texts with
  | (text, none) => "Error: " ++ text ++ "\n"
  | (text, some cause) => "Error: " ++ text ++ "\n\nCaused by:\n    " ++ cause ++ "\n"

/-- A built value, or the given trouble with its cause. -/
def building {α : Type} (trouble : BuildError → Trouble) : Except BuildError α → Except Trouble α
  | .ok a => .ok a
  | .error cause => .error (trouble cause)

/-- The network of the seed that a text gives. -/
def context (seed : String) : Except Trouble KeyContext :=
  match SeedText.parse seed.toList with
  | .ok bytes => .ok ⟨bytes⟩
  | .error fault => .error (.seed fault)

/-! ## Reports -/

/-- The label and both tables of a role's shuffle. -/
def encodingReport (role : Role) (shuffle : NibbleShuffle) (json : Bool) : String :=
  let label := Hex.text role.label.toList
  if json then
    Json.prettyText (.object [("role", role.toJson), ("label", .text label),
      ("forward", .naturals shuffle.forward), ("inverse", .naturals shuffle.inverse)]) ++ "\n"
  else
    "role: " ++ role.describe ++ "\nlabel: " ++ label
      ++ "\nforward: " ++ Hex.nibbleText shuffle.forward.toList
      ++ "\ninverse: " ++ Hex.nibbleText shuffle.inverse.toList ++ "\n"

/-- The entries of a table, one for each byte. -/
def tableReport {β : Type} (parameters : Json) (table : ByteTable β) (entryText : β → String)
    (json : Bool) : String :=
  let entries := table.tabulate.toList.map entryText
  if json then
    Json.prettyText (.object [("table", parameters), ("entries", .array (entries.map .text))])
      ++ "\n"
  else
    String.join (List.zipWith (fun b entry => Hex.text [b] ++ ": " ++ entry ++ "\n")
      NetworkCheck.allBytes entries)

/-- The entry of an XOR table, as a number in hexadecimal. -/
def xorEntryText (entry : Byte) : String := String.ofList (Nat.toDigits 16 entry.toNat)

/-- The digits of the bytes of an entry. -/
def bytesEntry {k : Nat} (entry : Vector Byte k) : String := Hex.text entry.toList

/-! ## Commands -/

/-- The role of a wire, and the encoding that is derived for the wire.  Neither is made
from the other. -/
def deriveRole (ctx : KeyContext) : WireRequest → Except BuildError (Role × NibbleShuffle)
  | .mask p s f => do
    let p ← Coordinate.ofNat .bytePosition p
    let s ← Coordinate.ofNat .nibblePosition s
    pure (.mask p s f, ctx.maskEncoding p s f)
  | .tyi r p s => do
    let r ← Coordinate.ofNat .round r
    let p ← Coordinate.ofNat .bytePosition p
    let s ← Coordinate.ofNat .nibblePosition s
    pure (.tyi r p s, ctx.tyiEncoding r p s)
  | .mbInverse r p s => do
    let r ← Coordinate.ofNat .round r
    let p ← Coordinate.ofNat .bytePosition p
    let s ← Coordinate.ofNat .nibblePosition s
    pure (.mbInverse r p s, ctx.mbInverseEncoding r p s)
  | .xor r p g f => do
    let r ← Coordinate.ofNat .round r
    let p ← Coordinate.ofNat .nibblePosition p
    let g ← Coordinate.ofNat .gate g
    pure (.xor r p g f, ctx.xorEncoding r p g f)
  | .round r p f => do
    let r ← Coordinate.ofNat .round r
    let p ← Coordinate.ofNat .nibblePosition p
    pure (.round r p f, ctx.roundEncoding r p f)

/-- Shows the label and the shuffle of a wire. -/
def runEncoding (seed : String) (json : Bool) (wire : WireRequest) : Except Trouble String := do
  let ctx ← context seed
  let (role, shuffle) ← building .build (deriveRole ctx wire)
  pure (encodingReport role shuffle json)

/-- Shows the entries of a table. -/
def runTable (seed : String) (kind : TableKind) (round position : Nat) (json : Bool) :
    Except Trouble String := do
  let ctx ← context seed
  match kind with
  | .xor => pure (tableReport xorTableJson xorTable xorEntryText json)
  | .mask =>
    let origin ← building .build (Coordinate.ofNat .bytePosition 0)
    let mask ← building .build (ctx.mixingBijection .block none origin)
    let table ← building .maskTable (MaskTable.build mask position)
    pure (tableReport table.toJson table.table bytesEntry json)
  | .mixingInverse =>
    let column ← building .build (Coordinate.ofNat .bytePosition (position / 4))
    let round ← building .build (Coordinate.ofNat .round round)
    let mixing ← building .build (ctx.mixingBijection .word (some round) column)
    let table ← building .mixingInverseTable (MixingInverseTable.ofMixing mixing (position % 4))
    pure (tableReport table.toJson table.table bytesEntry json)

/-- Checks the network of a seed. -/
def runCheck (ctx : KeyContext) (samples : Nat) : Except Trouble String :=
  match NetworkCheck.check ctx samples with
  | .ok () => .ok (s!"ok: {samples} samples\n")
  | .error failure => .error (.check failure)

/-- The outcome that has written a text before it got a result. -/
def Outcome.ofResult (written : String) : Except Trouble String → Outcome
  | .ok text => ⟨0, written ++ text, ""⟩
  | .error trouble => ⟨1, written, trouble.report⟩

/-- What a request is answered. -/
def run (entropy : List Byte) : Request → Outcome
  | .version => ⟨0, "wbaes 0.1.0\n", ""⟩
  | .encoding seed json wire => .ofResult "" (runEncoding seed json wire)
  | .table seed kind round position json => .ofResult "" (runTable seed kind round position json)
  | .check (some seed) samples =>
    .ofResult "" (do
      let ctx ← context seed
      runCheck ctx samples)
  | .check none samples =>
    .ofResult ("seed: " ++ Hex.text entropy ++ "\n") (runCheck ⟨entropy⟩ samples)

/-- What the arguments of a run are answered; none where they ask for nothing. -/
def answer? (entropy : List Byte) (args : List String) : Option Outcome :=
  (Request.ofArgs? args).map (run entropy)

end WhiteBox.Command
