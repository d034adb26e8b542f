import ScimQuery.Text.Ascii

/-!
# Comparators

The ten tests that a condition can make of an attribute. All of them compare it with an operand,
save `present`, which asks only whether the attribute is there.
-/

namespace ScimQuery

/-- The test that a condition makes. -/
inductive Comparator
  | arrayContains
  | contains
  | equal
  | endsWith
  | greaterEqual
  | greaterThan
  | lessEqual
  | lessThan
  | present
  | startsWith
deriving DecidableEq

namespace Comparator

/-- Every comparator, in the order of its keyword. -/
def all : List Comparator :=
  [.arrayContains, .contains, .equal, .endsWith, .greaterEqual, .greaterThan, .lessEqual, .lessThan,
    .present, .startsWith]

/-- The word that a comparator is written as. -/
def keyword : Comparator → String
  | .arrayContains => "aco"
  | .contains => "co"
  | .equal => "eq"
  | .endsWith => "ew"
  | .greaterEqual => "ge"
  | .greaterThan => "gt"
  | .lessEqual => "le"
  | .lessThan => "lt"
  | .present => "pr"
  | .startsWith => "sw"

/-- Whether a condition with this comparator has an operand. -/
def takesOperand (c : Comparator) : Bool := c != .present

/-- The comparator that a word names, in either case of its letters. -/
def ofWord? (word : String) : Option Comparator :=
  all.find? fun c => c.keyword == Text.lower word

/-- A word names the comparator whose keyword it is in lower case. -/
theorem ofWord?_eq_some_iff {word : String} {c : Comparator} :
    ofWord? word = some c ↔ Text.lower word = c.keyword := by
  constructor
  · intro h
    have hfound := List.find?_some h
    exact (beq_iff_eq.mp hfound).symm
  · intro h
    unfold ofWord?
    rw [h]
    cases c <;> decide

@[simp] theorem takesOperand_iff {c : Comparator} : c.takesOperand = true ↔ c ≠ .present := by
  simp [takesOperand]

end Comparator

end ScimQuery
