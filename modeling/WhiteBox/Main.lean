import WhiteBox.Command.Run

/-!
# The command line

Reads thirty-two random bytes, hands the arguments to `WhiteBox.Command.answer?`, and
writes what it answers.  Arguments that ask for nothing end with code two.
-/

/-- Answers the arguments and ends with the code of the answer. -/
def main (args : List String) : IO UInt32 := do
  let random ← IO.getRandomBytes 32
  match WhiteBox.Command.answer? (random.toList.map UInt8.toBitVec) args with
  | some outcome =>
    IO.print outcome.stdout
    IO.eprint outcome.stderr
    pure (UInt32.ofNat outcome.code)
  | none =>
    IO.eprint WhiteBox.Command.Request.usage
    pure 2
