import ScimQuery.Comparator
import ScimQuery.Connective
import ScimQuery.Operand
import ScimQuery.Workload

/-!
# Filters

A filter is a tree of conditions. Filters are joined two at a time by connectives, and a filter can
be applied to the elements of an attribute with several values. A chain of `n` conditions is a tree
of depth `n` that grows to the left, so that whatever walks over a filter keeps what is left to do in
a list and does not recurse on the tree.
-/

namespace ScimQuery

/-- A test of one attribute. Only filters that are built by hand have an operand for `present` or no
operand for another comparator. -/
structure Condition where
  path : String
  comparator : Comparator
  operand : Option Operand
deriving DecidableEq

/-- Whether two conditions test the same attribute in the same way against equal operands. -/
def Condition.equal (a b : Condition) : Bool :=
  a.path == b.path && a.comparator == b.comparator &&
    match a.operand, b.operand with
    | some x, some y => x.equal y
    | none, none => true
    | _, _ => false

/-- A test of a resource. -/
inductive Filter
  /-- A test of one attribute. -/
  | condition (test : Condition)
  /-- Both tests, or at least one of them. -/
  | logical (connective : Connective) (left right : Filter)
  /-- A test that some element of an attribute has to meet. -/
  | array (path : String) (inner : Filter)

namespace Filter

/-- The connective at the root of a filter. -/
def connective? : Filter → Option Connective
  | .logical c _ _ => some c
  | _ => none

/-- The number of nodes of a filter. -/
def nodes : Filter → Nat
  | .condition _ => 1
  | .logical _ l r => l.nodes + r.nodes + 1
  | .array _ f => f.nodes + 1

theorem nodes_pos (f : Filter) : 0 < f.nodes := by cases f <;> simp [nodes]

/-! ### Equality -/

/-- Whether the filters of every pair are equal. The pairs are a list of what is left to compare. -/
def equalPairs : List (Filter × Filter) → Bool
  | [] => true
  | (.condition a, .condition b) :: rest => a.equal b && equalPairs rest
  | (.logical c l r, .logical d m s) :: rest => c == d && equalPairs ((l, m) :: (r, s) :: rest)
  | (.array p f, .array q g) :: rest => p == q && equalPairs ((f, g) :: rest)
  | _ :: _ => false
termination_by pairs => workload (fun pair => pair.1.nodes) pairs
decreasing_by all_goals simp [nodes]; try omega

/-- Whether two filters have the same shape and equal connectives, paths and conditions at the same
places. A condition on a value that is no number does not even equal itself. -/
def equal (f g : Filter) : Bool := equalPairs [(f, g)]

/-- The pairs are compared one after the other. -/
theorem equalPairs_append (front pairs : List (Filter × Filter)) :
    equalPairs (front ++ pairs) = (equalPairs front && equalPairs pairs) := by
  fun_induction equalPairs front <;> simp_all [equalPairs, Bool.and_assoc]

theorem equalPairs_cons (f g : Filter) (pairs : List (Filter × Filter)) :
    equalPairs ((f, g) :: pairs) = (f.equal g && equalPairs pairs) :=
  equalPairs_append [(f, g)] pairs

@[simp] theorem equal_condition (a b : Condition) :
    equal (.condition a) (.condition b) = a.equal b := by
  simp [equal, equalPairs]

theorem equal_logical (c d : Connective) (l r m s : Filter) :
    equal (.logical c l r) (.logical d m s) = (c == d && (l.equal m && r.equal s)) := by
  rw [equal, equalPairs, equalPairs_cons, equalPairs_cons, equalPairs, Bool.and_true]

theorem equal_array (p q : String) (f g : Filter) :
    equal (.array p f) (.array q g) = (p == q && f.equal g) := by
  rw [equal, equalPairs, equalPairs_cons, equalPairs, Bool.and_true]

end Filter

end ScimQuery
