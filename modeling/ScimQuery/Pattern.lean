/-!
# Search patterns

Conditions on a part of a text are handed to the data base as patterns. A text is made into a
pattern that matches exactly that text: each character with a meaning in patterns gets a backslash in
front of it.
-/

namespace ScimQuery.Pattern

/-- The characters with a meaning of their own in a pattern. -/
def special : List Char :=
  ['.', '*', '+', '?', '^', '$', '\x7b', '\x7d', '(', ')', '|', '[', ']', '\\']

/-- The pattern that matches one character. -/
def escapeChar (c : Char) : List Char := if special.contains c then ['\\', c] else [c]

/-- The pattern that matches a text literally. -/
def escape (text : String) : String := String.ofList (text.toList.flatMap escapeChar)

end ScimQuery.Pattern
