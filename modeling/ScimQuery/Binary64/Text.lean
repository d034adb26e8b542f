import ScimQuery.Binary64.Shortest

/-!
# The text of a binary number

Within a filter or a pattern a number stands in positional notation, whatever its size, and always
with a point: a whole number has all its digits and `.0`, so that it is not taken for an integer.
-/

namespace ScimQuery.Binary64

/-- The decimal that a magnitude is written as: itself if it is whole, and otherwise the shortest one
that is read as it again. -/
def decimal (m : Magnitude) : Decimal :=
  if m.units % Magnitude.unitsPerOne = 0 then ⟨m.units / Magnitude.unitsPerOne, 0⟩ else m.shortest .up

/-- The text of a number: the shortest that is read as the number again, save that a whole number
has all its digits. A zero keeps its sign. -/
def text : Binary64 → String
  | .finite negative m => String.ofList ((if negative then ['-'] else []) ++ (decimal m).pointed)
  | .infinite negative => if negative then "-inf" else "inf"
  | .nan => "NaN"

end ScimQuery.Binary64
