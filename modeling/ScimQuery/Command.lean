import ScimQuery.Json.Printer
import ScimQuery.Manual
import ScimQuery.Query.OfText
import ScimQuery.Filter.Text

/-!
# Commands

What can be done with a filter from outside: compile it, check it, list its tokens, and look
something up in the manual. Each command gives a text or the reason why it cannot.
-/

namespace ScimQuery

/-- The reason why a command fails. -/
inductive CommandError
  /-- The filter cannot be parsed. -/
  | parse (error : ParseError)
  /-- The filter that was piped in is no text. -/
  | invalidInput
  /-- There is no filter. -/
  | noFilter
  /-- The manual has no topic of this name. -/
  | unknownTopic (name : String)

namespace CommandError

/-- The text of an error. -/
def message : CommandError → String
  | .parse e => "Parse error: " ++ e.message
  | .invalidInput => "IO error: stream did not contain valid UTF-8"
  | .noFilter => "No filter provided. Pass it as an argument or pipe it to stdin."
  | .unknownTopic name =>
    "Unknown category: '" ++ name ++ "'\nRun 'scim2mongo docs' to see available categories."

end CommandError

/-- What a command has found out about a filter. -/
inductive Report
  /-- The filter is valid. It has a canonical text unless it is blank. -/
  | valid (canonical : Option String)
  /-- The query for the filter. -/
  | query (document : Json)

namespace Report

/-- The text of a report. Only queries can be written on several lines. -/
def render (pretty : Bool) : Report → String
  | .valid (some text) => "Syntax is valid: " ++ text
  | .valid none => "Syntax is valid (empty filter)"
  | .query q => if pretty then q.pretty else q.compact

end Report

namespace Command

/-- Parses the text of a filter that may be missing. -/
def parse (filter : Option String) (limit : Nat) : Except CommandError (Option Filter) :=
  match filter with
  | some text => (Filter.parse text limit).mapError .parse
  | none => .error .noFilter

/-- Reports the query for a filter, or with `syntaxOnly` just that it is valid. -/
def report (syntaxOnly : Bool) (filter : Option String) (limit : Nat) :
    Except CommandError Report :=
  (parse filter limit).map fun f =>
    if syntaxOnly then .valid (f.map Filter.text) else .query (Filter.compileOptional f)

/-- Reports the query for a filter. -/
def compile (filter : Option String) (limit : Nat) : Except CommandError Report :=
  report false filter limit

/-- Reports whether a filter is valid. -/
def check (filter : Option String) (limit : Nat) : Except CommandError Report :=
  report true filter limit

/-- Lists the tokens of a filter, which need not be valid. -/
def tokens : Option String → Except CommandError (List Token)
  | some text => .ok (Token.tokenize text)
  | none => .error .noFilter

/-- Looks up the topic of a name and its page. -/
def topic (name : String) : Except CommandError Topic :=
  match Topic.ofName? name with
  | some t => .ok t
  | none => .error (.unknownTopic name)

end Command

end ScimQuery
