import ScimQuery.Text.Ascii

/-!
# Connectives

The two words that join filters. They have the same precedence, and chains of them group from left
to right.
-/

namespace ScimQuery

/-- A word that joins two filters. -/
inductive Connective
  | and
  | or
deriving DecidableEq

namespace Connective

/-- The word that a connective is written as. -/
def keyword : Connective → String
  | .and => "and"
  | .or => "or"

/-- The key of a query document that holds under several queries. -/
def queryKey : Connective → String
  | .and => "$and"
  | .or => "$or"

@[simp] theorem queryKey_and : queryKey .and = "$and" := rfl

@[simp] theorem queryKey_or : queryKey .or = "$or" := rfl

/-- There are two keys of connectives. -/
theorem queryKey_eq_or (c : Connective) : c.queryKey = "$and" ∨ c.queryKey = "$or" := by
  cases c with
  | and => exact .inl queryKey_and
  | or => exact .inr queryKey_or

/-- The key of a connective says which one it is. -/
theorem queryKey_inj {c d : Connective} : c.queryKey = d.queryKey ↔ c = d := by
  cases c <;> cases d <;> simp

/-- The connective that a word names, in either case of its letters. -/
def ofWord? (word : String) : Option Connective :=
  [and, or].find? fun c => Text.equalIgnoringCase word c.keyword

/-- A word names the connective whose keyword it is in lower case. -/
theorem ofWord?_eq_some_iff {word : String} {c : Connective} :
    ofWord? word = some c ↔ Text.lower word = c.keyword := by
  have hand : Text.lower and.keyword = and.keyword := by decide
  have hor : Text.lower or.keyword = or.keyword := by decide
  unfold ofWord? Text.equalIgnoringCase
  simp only [List.find?_cons, List.find?_nil, hand, hor]
  by_cases h₁ : Text.lower word = and.keyword
  · cases c <;> simp [h₁, keyword]
  · by_cases h₂ : Text.lower word = or.keyword
    · cases c <;> simp [h₂, keyword]
    · rw [beq_eq_false_iff_ne.mpr h₁, beq_eq_false_iff_ne.mpr h₂]
      cases c <;> simp [h₁, h₂]

end Connective

end ScimQuery
