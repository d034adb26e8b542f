import ScimQuery.Binary64.Basic

/-!
# JSON values

The values that queries are made of. An object is a list of fields, so that the order in which they
are written belongs to the value.
-/

namespace ScimQuery

/-- A JSON value. -/
inductive Json
  | null
  | boolean (value : Bool)
  | integer (value : Int)
  | real (value : Binary64)
  | string (value : String)
  | array (items : List Json)
  | object (fields : List (String × Json))

namespace Json

/-- The object with one field. -/
def single (key : String) (value : Json) : Json := .object [(key, value)]

end Json

end ScimQuery
