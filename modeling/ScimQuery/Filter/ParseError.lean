import ScimQuery.Token

/-!
# Errors in filters

The ways in which a sequence of tokens can fail to be a filter. Each error names the place of the
token that it is about, counted from zero; the place of a missing token is the end of the sequence.
-/

namespace ScimQuery

/-- The reason why a sequence of tokens is no filter. -/
inductive ParseError
  /-- What stands after a path is no comparator. A word is given in lower case. -/
  | unsupportedComparator (found : String) (position : Nat)
  /-- A path, a comparator or an operand is missing. -/
  | invalidCondition (position : Nat)
  /-- A bracket that was opened is not closed. -/
  | missingClosing (bracket : Bracket) (position : Nat)
  /-- Groups and switches of the connective are nested deeper than the limit. -/
  | nestingTooDeep (limit position : Nat)
  /-- A token follows a complete filter. -/
  | unexpectedToken (token : Token) (position : Nat)
deriving DecidableEq

namespace ParseError

/-- The place of the token that an error is about. -/
def position : ParseError → Nat
  | .unsupportedComparator _ p => p
  | .invalidCondition p => p
  | .missingClosing _ p => p
  | .nestingTooDeep _ p => p
  | .unexpectedToken _ p => p

/-- The place of the first token that is left after an error. Only what stands for a comparator has
been read by the time that it is found to be none. -/
def resumeAt : ParseError → Nat
  | .unsupportedComparator _ p => p + 1
  | e => e.position

/-- The text of an error. -/
def message (e : ParseError) : String :=
  let place := "token " ++ toString e.position
  match e with
  | .unsupportedComparator found _ => "Unsupported comparator: " ++ found ++ " (" ++ place ++ ")"
  | .invalidCondition _ => "Invalid condition syntax at " ++ place
  | .missingClosing b _ => "Expected '" ++ b.closing.toString ++ "' at " ++ place
  | .nestingTooDeep limit _ =>
    "Filter nested deeper than " ++ toString limit ++ " levels at " ++ place
  | .unexpectedToken token _ => "Unexpected token '" ++ token.text ++ "' at " ++ place

end ParseError

end ScimQuery
