import ScimQuery.Filter.Fold

/-!
# Postfix notation

A filter can be written as a list in which each connective stands behind its two operands and the
path of an array filter behind what its elements have to meet. This is the order in which a fold
visits the nodes, so that a visitor writes it down, and no brackets are needed to read it.
-/

namespace ScimQuery

/-- A node of a filter, without the nodes below it. -/
inductive Entry
  | condition (test : Condition)
  /-- Joins the two filters before it. -/
  | logical (connective : Connective)
  /-- Applies the filter before it to the elements of an attribute. -/
  | array (path : String)

namespace Filter

/-! ### Writing -/

/-- Keeps the nodes that have been visited, the last one first. -/
def recorder : Visitor (List Entry) Unit where
  condition c := fun entries => ((), .condition c :: entries)
  logical c _ _ := fun entries => ((), .logical c :: entries)
  array path _ := fun entries => ((), .array path :: entries)

/-- The nodes of a filter, in the order of a fold. -/
def toPostfix (f : Filter) : List Entry := (f.fold recorder []).2.reverse

/-! ### Reading -/

/-- Adds a node on top of the filters that were read last. -/
def pushEntry (stack : List Filter) : Entry → Option (List Filter)
  | .condition c => some (.condition c :: stack)
  | .logical c =>
    match stack with
    | right :: left :: rest => some (.logical c left right :: rest)
    | _ => none
  | .array path =>
    match stack with
    | inner :: rest => some (.array path inner :: rest)
    | _ => none

/-- The filter that a list of nodes describes, if it describes exactly one. -/
def ofPostfix? (entries : List Entry) : Option Filter :=
  match entries.foldlM pushEntry [] with
  | some [f] => some f
  | _ => none

end Filter

end ScimQuery
