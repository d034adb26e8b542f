/-!
# Tokens

A filter is a sequence of brackets, words and quoted literals. Round brackets group a filter, square
brackets hold the filter on the elements of an attribute, and a word is a path, a comparator, a
connective or an operand, as its place says.
-/

namespace ScimQuery

/-- The two kinds of brackets. -/
inductive Bracket
  | round
  | square
deriving DecidableEq

namespace Bracket

/-- The character that opens a bracket. -/
def opening : Bracket → Char
  | .round => '('
  | .square => '['

/-- The character that closes a bracket. -/
def closing : Bracket → Char
  | .round => ')'
  | .square => ']'

end Bracket

/-- A lexical unit of a filter. -/
inductive Token
  /-- An opening bracket. -/
  | opening (bracket : Bracket)
  /-- A closing bracket. -/
  | closing (bracket : Bracket)
  /-- A run of letters, digits, underscores and dots. -/
  | word (text : String)
  /-- A quoted literal, by the text between its quotation marks. -/
  | quoted (content : String)
deriving DecidableEq

namespace Token

/-- The text of a token in a filter. -/
def text : Token → String
  | .opening b => b.opening.toString
  | .closing b => b.closing.toString
  | .word w => w
  | .quoted s => "\"" ++ s ++ "\""

/-- The bracket token that a character stands for. -/
def ofBracket? : Char → Option Token
  | '(' => some (.opening .round)
  | ')' => some (.closing .round)
  | '[' => some (.opening .square)
  | ']' => some (.closing .square)
  | _ => none

/-- Whether a character can stand in a word. -/
def isWordChar (c : Char) : Bool :=
  ('A' ≤ c && c ≤ 'Z') || ('a' ≤ c && c ≤ 'z') || ('0' ≤ c && c ≤ '9') || c == '_' || c == '.'

end Token

end ScimQuery
