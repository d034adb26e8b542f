import ScimQuery.CommandLine

/-!
# The program

Reads what is piped in if the command needs it, runs the command line, and prints what it leaves
behind.
-/

namespace ScimQuery.CommandLine

/-- Everything that is piped in, or nothing at a terminal. -/
def readInput : IO (Option ByteArray) := do
  let input ← IO.getStdin
  if ← input.isTty then return none
  return some (← input.readBinToEnd)

end ScimQuery.CommandLine

open ScimQuery

/-- Runs the program on the arguments of the process. -/
def main (arguments : List String) : IO UInt32 := do
  let input ← if CommandLine.readsInput arguments then CommandLine.readInput else pure none
  let outcome := CommandLine.run arguments input
  match outcome with
  | .success text => IO.print text
  | .failure text => IO.eprint text
  | .help => IO.print CommandLine.usage
  | .misuse => IO.eprint CommandLine.usage
  return outcome.code.toUInt32
