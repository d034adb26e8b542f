import ScimQuery.Filter.Parser
import ScimQuery.Text.Ascii

/-!
# Command-line arguments

Arguments are read from left to right. The options for the limit and for the log level are known
everywhere and may stand before or after the verb; what is set behind the verb counts. `-p` is known
to `compile` only, and `--version` only before the verb.

An option can have its value in the same argument (`--max-depth=3`, `-linfo`) or in the next one. A
value in the next argument is checked when the next option or operand has been recognised, or at the
end, and what stands before the verb only after all that stands behind it. A request for help is
granted as soon as it is met, so that only what has been checked by then can keep it from being
granted.
-/

namespace ScimQuery

/-! ### What can be asked for -/

/-- The commands. -/
inductive Verb
  | compile
  | check
  | tokens
  | topics
  | topic
deriving DecidableEq

namespace Verb

/-- Every verb. -/
def all : List Verb := [.compile, .check, .tokens, .topics, .topic]

/-- The word that a verb is written as. -/
def keyword : Verb → String
  | .compile => "compile"
  | .check => "check"
  | .tokens => "tokens"
  | .topics => "docs"
  | .topic => "doc"

/-- The verb that a word names. -/
def ofWord? (word : String) : Option Verb := all.find? (·.keyword == word)

/-- Whether a verb has an operand. -/
def takesOperand (v : Verb) : Bool := v != .topics

end Verb

/-- What is asked for. A filter that is missing is piped in. -/
inductive Request
  | compile (filter : Option String) (pretty : Bool)
  | check (filter : Option String)
  | tokens (filter : Option String)
  /-- The list of topics. -/
  | topics
  /-- The page on a topic. -/
  | topic (name : String)

/-- Whether a request needs a filter that is piped in. -/
def Request.readsInput : Request → Bool
  | .compile filter _ => filter.isNone
  | .check filter => filter.isNone
  | .tokens filter => filter.isNone
  | .topics => false
  | .topic _ => false

/-- A complete command: what is asked for, and how deep a filter may be nested. -/
structure Invocation where
  request : Request
  limit : Nat

/-- The ways in which arguments end before they are a command. -/
inductive EarlyEnd
  | help
  | version
  /-- The arguments make no sense. -/
  | misuse

/-! ### Options -/

/-- An option with a value. -/
inductive Setting
  | limit
  | logLevel

/-- An option without a value. -/
inductive Flag
  | help
  | version
  | pretty

/-- An option of either kind. -/
inductive ArgumentOption
  | setting (setting : Setting)
  | flag (flag : Flag)

namespace ArgumentOption

/-- The option that a letter stands for, before the verb or behind one. -/
def ofLetter? (verb : Option Verb) : Char → Option ArgumentOption
  | 'h' => some (.flag .help)
  | 'l' => some (.setting .logLevel)
  | 'V' => if verb = none then some (.flag .version) else none
  | 'p' => if verb = some .compile then some (.flag .pretty) else none
  | _ => none

/-- The option that a name stands for, before the verb or behind one. -/
def ofName? (verb : Option Verb) (name : String) : Option ArgumentOption :=
  if name = "help" then some (.flag .help)
  else if name = "log-level" then some (.setting .logLevel)
  else if name = "max-depth" then some (.setting .limit)
  else if name = "version" then if verb = none then some (.flag .version) else none
  else if name = "pretty" then if verb = some .compile then some (.flag .pretty) else none
  else none

end ArgumentOption

/-- A natural number below `2 ^ 64`: ASCII digits, with a plus sign in front or not. -/
def word64? (text : String) : Option Nat :=
  let digits := match text.toList with
    | '+' :: rest => rest
    | all => all
  if digits.isEmpty || !digits.all Char.isDigit then none
  else
    let value := Nat.ofDigitChars 10 digits 0
    if value < UInt64.size then some value else none

/-- Whether a text names a log level, by its word in any case or by its number. -/
def isLogLevel (text : String) : Bool :=
  ["error", "warn", "info", "debug", "trace"].any (Text.equalIgnoringCase text ·) ||
    (word64? text).any fun n => 1 ≤ n && n ≤ 5

/-! ### One side of the verb -/

/-- What has been read on one side of the verb. -/
structure Scan where
  limit : Option Nat
  hasLogLevel : Bool
  pretty : Bool
  operand : Option String
  /-- An option whose value has not been checked, and the value unless it is still to come. -/
  pending : Option (Setting × Option String)

namespace Scan

/-- Nothing has been read. -/
def empty : Scan := ⟨none, false, false, none, none⟩

/-- The option that waits for its value. -/
def awaited? (s : Scan) : Option Setting :=
  match s.pending with
  | some (setting, none) => some setting
  | _ => none

/-- Sets an option, which can be done only once and with a proper value. -/
def assign (setting : Setting) (value : String) (s : Scan) : Except EarlyEnd Scan :=
  match setting with
  | .limit =>
    match s.limit, word64? value with
    | none, some n => .ok { s with limit := some n }
    | _, _ => .error .misuse
  | .logLevel =>
    if !s.hasLogLevel && isLogLevel value then .ok { s with hasLogLevel := true }
    else .error .misuse

/-- Sets the pending option. -/
def settle (s : Scan) : Except EarlyEnd Scan :=
  match s.pending with
  | none => .ok s
  | some (setting, some value) => assign setting value { s with pending := none }
  | some (_, none) => .error .misuse

/-- Reads an option without a value. -/
def raise (flag : Flag) (s : Scan) : Except EarlyEnd Scan := do
  let s ← s.settle
  match flag with
  | .help => .error .help
  | .version => .error .version
  | .pretty => if s.pretty then .error .misuse else .ok { s with pretty := true }

/-- Reads an option with a value, or with one that is to come. -/
def give (setting : Setting) (value : Option String) (s : Scan) : Except EarlyEnd Scan := do
  let s ← s.settle
  match value with
  | some value => assign setting value s
  | none => .ok { s with pending := some (setting, none) }

/-- Reads the operand of a verb. -/
def operate (verb : Verb) (s : Scan) (word : String) : Except EarlyEnd Scan := do
  let s ← s.settle
  if verb.takesOperand && s.operand.isNone then .ok { s with operand := some word }
  else .error .misuse

/-- Reads an option by its name, behind its two hyphens. -/
def readName (verb : Option Verb) (body : List Char) (s : Scan) : Except EarlyEnd Scan :=
  let name := String.ofList (body.takeWhile (· != '='))
  match ArgumentOption.ofName? verb name, body.dropWhile (· != '=') with
  | some (.flag flag), [] => s.raise flag
  | some (.setting setting), [] => s.give setting none
  | some (.setting setting), _ :: value => s.give setting (some (String.ofList value))
  | _, _ => .error .misuse

/-- Reads options by their letters. What stands behind the letter of an option with a value is its
value. -/
def readLetters (verb : Option Verb) : List Char → Scan → Except EarlyEnd Scan
  | [], s => .ok s
  | c :: rest, s =>
    match ArgumentOption.ofLetter? verb c, rest with
    | some (.flag flag), rest => do readLetters verb rest (← s.raise flag)
    | some (.setting setting), [] => s.give setting none
    | some (.setting setting), '=' :: value => s.give setting (some (String.ofList value))
    | some (.setting setting), value => s.give setting (some (String.ofList value))
    | none, _ => .error .misuse

/-- Reads the arguments behind a verb. Behind two hyphens there are only operands. -/
def readBehind (verb : Verb) (s : Scan) : List String → Except EarlyEnd Scan
  | [] => s.settle
  | argument :: rest =>
    match argument.toList with
    | ['-', '-'] => do (← rest.foldlM (operate verb) s).settle
    | '-' :: '-' :: body => do readBehind verb (← s.readName verb body) rest
    | '-' :: c :: body => do readBehind verb (← s.readLetters verb (c :: body)) rest
    | _ =>
      match s.awaited? with
      | some setting => readBehind verb { s with pending := some (setting, some argument) } rest
      | none => do readBehind verb (← s.operate verb argument) rest

end Scan

/-! ### The whole command -/

namespace Invocation

/-- What is asked for by a verb and what has been read behind it. Only a topic has to be named. -/
def requestOf (verb : Verb) (behind : Scan) : Except EarlyEnd Request :=
  match verb, behind.operand with
  | .compile, filter => .ok (.compile filter behind.pretty)
  | .check, filter => .ok (.check filter)
  | .tokens, filter => .ok (.tokens filter)
  | .topics, _ => .ok .topics
  | .topic, some name => .ok (.topic name)
  | .topic, none => .error .misuse

/-- The command that is made up by what has been read on both sides of a verb. -/
def ofScans (verb : Verb) (before behind : Scan) : Except EarlyEnd Invocation := do
  let request ← requestOf verb behind
  let before ← before.settle
  .ok ⟨request, (behind.limit <|> before.limit).getD Parser.defaultLimit⟩

/-- Whether the arguments behind `help` ask for a page of help: none, a verb, or `help` itself. -/
def hasHelp : List String → Bool
  | [] => true
  | [word] => word == "help" || (Verb.ofWord? word).isSome
  | _ => false

/-- Reads the arguments from the verb or an option before it on. -/
def readFrom (s : Scan) : List String → Except EarlyEnd Invocation
  | [] => .error .misuse
  | argument :: rest =>
    match s.awaited?, argument.toList with
    | _, ['-', '-'] => .error .misuse
    | _, '-' :: '-' :: body => do readFrom (← s.readName none body) rest
    | _, '-' :: c :: body => do readFrom (← s.readLetters none (c :: body)) rest
    | some setting, _ => readFrom { s with pending := some (setting, some argument) } rest
    | none, _ =>
      match Verb.ofWord? argument with
      | some verb => do ofScans verb s (← Scan.empty.readBehind verb rest)
      | none =>
        if argument = "help" && hasHelp rest then .error .help
        else .error .misuse

/-- The command that arguments make up. -/
def ofArguments (arguments : List String) : Except EarlyEnd Invocation :=
  readFrom .empty arguments

end Invocation

end ScimQuery
