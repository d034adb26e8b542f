import ScimQuery.Filter.Reading
import ScimQuery.Text.Blank
import ScimQuery.Token.Lexer

/-!
# Parsing filters

A `Parser` holds tokens and how far they have been read. It can be asked for a filter more than once:
after an error it goes on behind what it has read, at the depth that the error left. `Filter.parse`
asks a new parser for the filter that a whole text describes.
-/

namespace ScimQuery

/-- Tokens on their way to being filters. -/
structure Parser where
  tokens : List Token
  /-- The greatest depth that is admitted. -/
  limit : Nat
  /-- The place of the first token that has not been read. -/
  position : Nat
  /-- The depth that is taken. -/
  depth : Nat

namespace Parser

/-- The limit where none is given. -/
def defaultLimit : Nat := 64

/-- A parser that has read nothing. -/
def start (tokens : List Token) (limit : Nat) : Parser := ⟨tokens, limit, 0, 0⟩

/-- Reads the tokens that are left as one filter. -/
def parse (p : Parser) : Except ParseError Filter × Parser :=
  let reading := Reading.start p.depth
  match reading.run p.limit p.position (p.tokens.drop p.position) with
  | .ok (filter, depth) => (.ok filter, { p with position := p.tokens.length, depth := depth })
  | .error ⟨error, depth⟩ => (.error error, { p with position := error.resumeAt, depth := depth })

end Parser

namespace Filter

/-- The filter that a sequence of tokens is. -/
def ofTokens (tokens : List Token) (limit : Nat) : Except ParseError Filter :=
  (Parser.start tokens limit).parse.1

/-- The filter that a text describes. A blank text describes none. -/
def parse (text : String) (limit : Nat) : Except ParseError (Option Filter) :=
  if Text.isBlankText text then .ok none
  else (ofTokens (Token.tokenize text) limit).map some

end Filter

end ScimQuery
