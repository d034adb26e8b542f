import ScimQuery.Arguments
import ScimQuery.Command

/-!
# The command line

`CommandLine.run` is the whole program but for the reading and writing: from the arguments and what is
piped in to the output, the message of an error and the exit code. What is piped in is the filter of
a command that has none among its arguments.
-/

namespace ScimQuery

/-- What the program leaves behind. -/
inductive Outcome
  /-- The output of a command. -/
  | success (output : String)
  /-- The message of a command that failed. -/
  | failure (message : String)
  /-- Help was asked for. -/
  | help
  /-- The arguments make no sense. -/
  | misuse

namespace Outcome

/-- The exit code of the program. -/
def code : Outcome → Nat
  | .success _ => 0
  | .failure _ => 1
  | .help => 0
  | .misuse => 2

end Outcome

namespace CommandLine

/-- What `--version` prints. -/
def version : String := "scim2mongo 0.1.0"

/-- The filter that was piped in. There is none at a terminal. -/
def filterOfInput : Option ByteArray → Except CommandError (Option String)
  | some bytes =>
    match String.fromUTF8? bytes with
    | some text => .ok (some text)
    | none => .error .invalidInput
  | none => .ok none

/-- The filter of a command: the one that is given, or what was piped in. -/
def filterOf (given : Option String) (input : Option ByteArray) :
    Except CommandError (Option String) :=
  match given with
  | some text => .ok (some text)
  | none => filterOfInput input

/-- Ends a text with a new line. -/
def line (text : String) : String := text ++ "\n"

/-- The text that a command gives. -/
def output (invocation : Invocation) (input : Option ByteArray) : Except CommandError String :=
  match invocation.request with
  | .compile filter pretty => do
    let report ← Command.compile (← filterOf filter input) invocation.limit
    return line (report.render pretty)
  | .check filter => do
    let report ← Command.check (← filterOf filter input) invocation.limit
    return line (report.render false)
  | .tokens filter => do
    let tokens ← Command.tokens (← filterOf filter input)
    return String.join (tokens.map fun token => line token.text)
  | .topics => .ok Manual.overviewText
  | .topic name => (Command.topic name).map Manual.page

/-- Runs the program on its arguments and on what is piped in. -/
def run (arguments : List String) (input : Option ByteArray) : Outcome :=
  match Invocation.ofArguments arguments with
  | .ok invocation =>
    match output invocation input with
    | .ok text => .success text
    | .error e => .failure (line e.message)
  | .error .help => .help
  | .error .version => .success (line version)
  | .error .misuse => .misuse

/-- Whether the filter of a command has to be read from what is piped in. -/
def readsInput (arguments : List String) : Bool :=
  match Invocation.ofArguments arguments with
  | .ok invocation => invocation.request.readsInput
  | .error _ => false

/-- How to use the program. -/
def usage : String :=
  Manual.ofLines [
    "Usage: scim2mongo [OPTIONS] COMMAND",
    "",
    "Commands:",
    "  compile [-p] [FILTER]  Compile a filter into a query",
    "  check [FILTER]         Validate a filter and print its normalised form",
    "  tokens [FILTER]        Print the tokens of a filter, one per line",
    "  docs                   List documentation categories",
    "  doc CATEGORY           Show documentation for a category",
    "",
    "Options:",
    "  -l, --log-level LEVEL  error, warn, info, debug or trace",
    "      --max-depth N      Greatest nesting of groups and and/or switches",
    "  -p, --pretty           Write the query on indented lines",
    "  -h, --help             Print this text",
    "  -V, --version          Print the version"]

end CommandLine

end ScimQuery
