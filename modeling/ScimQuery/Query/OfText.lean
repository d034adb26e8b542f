import ScimQuery.Filter.Parser
import ScimQuery.Query

/-!
# From the text of a filter to a query

The whole way from a text to the document that a data base is asked with.
-/

namespace ScimQuery

/-- The query for the text of a filter. A filter that is missing or blank matches everything. -/
def queryOfText (filter : Option String) (limit : Nat) : Except ParseError Json :=
  match filter with
  | some text => (Filter.parse text limit).map Filter.compileOptional
  | none => .ok (Filter.compileOptional none)

end ScimQuery
