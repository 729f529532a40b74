/-!
# Options of a command

The arguments of a command are options, and then possibly the name of a subcommand
with arguments of its own.  An option is a switch, `--name`, or carries a value,
`--name value` or `--name=value`.  Each may be given once.

A value that starts with a minus sign has to be attached with the equals sign,
unless it is the minus sign alone.  The word after an option that waits for its
value is that value, even if it is the name of a subcommand.  The argument `--` ends
the options, and nothing may follow it.
-/

namespace WhiteBox.Command

/-- Whether an option carries a value. -/
inductive OptionKind where
  /-- It is present or absent. -/
  | switch
  /-- It carries a value. -/
  | value
  deriving DecidableEq, Repr

/-- The options and subcommands that a command knows. -/
structure Grammar where
  /-- Names of options, without the leading dashes. -/
  options : List (String × OptionKind)
  /-- Names of subcommands. -/
  commands : List String

/-- What the arguments of a command say. -/
structure Matched where
  /-- The switches that are present. -/
  switches : List String
  /-- The options that carry a value. -/
  values : List (String × String)
  /-- The subcommand and its arguments. -/
  command : Option (String × List String)
  deriving DecidableEq, Repr

namespace Matched

/-- Nothing was said. -/
def empty : Matched := ⟨[], [], none⟩

/-- Adds a switch that was not there. -/
def addSwitch (m : Matched) (name : String) : Option Matched :=
  if name ∈ m.switches then none else some ⟨name :: m.switches, m.values, m.command⟩

/-- Adds a value for an option that had none. -/
def addValue (m : Matched) (name value : String) : Option Matched :=
  if (m.values.lookup name).isSome then none
  else some ⟨m.switches, (name, value) :: m.values, m.command⟩

/-- Whether a switch is present. -/
def switch (m : Matched) (name : String) : Bool := decide (name ∈ m.switches)

/-- The value of an option. -/
def value? (m : Matched) (name : String) : Option String := m.values.lookup name

end Matched

/-- The name of a long option and the value attached to it. -/
def longOption? (arg : String) : Option (String × Option String) :=
  match arg.toList with
  | '-' :: '-' :: rest =>
    let name := rest.takeWhile (· ≠ '=')
    match rest.dropWhile (· ≠ '=') with
    | [] => some (String.ofList name, none)
    | _ :: value => some (String.ofList name, some (String.ofList value))
  | _ => none

/-- Whether an argument may be the value of the option before it. -/
def isValue (arg : String) : Bool :=
  match arg.toList with
  | ['-'] => true
  | '-' :: _ => false
  | _ => true

/-- Reads the arguments of a command, adding to what was said before. -/
def Grammar.readFrom (g : Grammar) (m : Matched) : List String → Option Matched
  | [] => some m
  | arg :: rest =>
    if arg ∈ g.commands then some ⟨m.switches, m.values, some (arg, rest)⟩
    else if arg = "--" then if rest.isEmpty then some m else none
    else
      match longOption? arg with
      | none => none
      | some (name, attached) =>
        match g.options.lookup name, attached, rest with
        | some .switch, none, rest =>
          match m.addSwitch name with
          | some m => g.readFrom m rest
          | none => none
        | some .value, some value, rest =>
          match m.addValue name value with
          | some m => g.readFrom m rest
          | none => none
        | some .value, none, value :: rest =>
          if isValue value then
            match m.addValue name value with
            | some m => g.readFrom m rest
            | none => none
          else none
        | _, _, _ => none

/-- Reads the arguments of a command. -/
def Grammar.read (g : Grammar) (args : List String) : Option Matched := g.readFrom .empty args

/-! ## Values -/

/-- The number that decimal digits after an optional plus sign denote, if it fits 64
bits. -/
def number? (text : String) : Option Nat :=
  let digits := match text.toList with
    | '+' :: rest => rest
    | all => all
  if digits.isEmpty || !digits.all (fun c => '0' ≤ c && c ≤ '9') then none
  else
    let n := digits.foldl (fun n c => 10 * n + (c.toNat - 0x30)) 0
    if n < UInt64.size then some n else none

/-- The number that an option has to carry. -/
def Matched.number? (m : Matched) (name : String) : Option Nat := m.value? name >>= Command.number?

/-- The number that an option carries, or the given one if it is absent. -/
def Matched.numberOr? (m : Matched) (name : String) (absent : Nat) : Option Nat :=
  match m.value? name with
  | some text => Command.number? text
  | none => some absent

end WhiteBox.Command
