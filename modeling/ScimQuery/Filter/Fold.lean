import ScimQuery.Filter.Basic

/-!
# Folding a filter

A `Visitor` says what to do at each kind of node, given the results for the nodes below it, while it
carries a state along. `fold` visits every node once, operands before what joins them and the left
one before the right one.

`Visitor.result` is that fold by recursion on the filter. `fold` itself works off a list of steps, so
that a long chain of conditions needs no deep recursion; `Visitor.run_visit` says that it finds each
operand where it expects it, and hence that the two agree.
-/

namespace ScimQuery

/-- What to do at each kind of node, with a state `σ` and results `β`. -/
structure Visitor (σ β : Type) where
  condition : Condition → StateM σ β
  /-- What to do with the results of the left and the right operand. -/
  logical : Connective → β → β → StateM σ β
  array : String → β → StateM σ β

namespace Visitor

variable {σ β : Type} (v : Visitor σ β)

/-! ### By recursion -/

/-- The result of a visit to a filter and the state after it. -/
def result : Filter → StateM σ β
  | .condition c => v.condition c
  | .logical c l r => do
    let left ← result l
    let right ← result r
    v.logical c left right
  | .array path f => do
    let inner ← result f
    v.array path inner

/-! ### By steps -/

/-- What is left to do in a fold. -/
inductive Step
  /-- Visit a filter and leave its result. -/
  | visit (filter : Filter)
  /-- Join the two results that were left last. -/
  | join (connective : Connective)
  /-- Take the result that was left last for that of the elements of an attribute. -/
  | wrap (path : String)

/-- A measure of the work that a step takes. -/
def Step.weight : Step → Nat
  | .visit f => 2 * f.nodes
  | .join _ => 1
  | .wrap _ => 1

/-- Works off steps, with the results that earlier steps left, the last one first, and the state
after them. There is no answer if a step misses a result that it needs or if one is left over. -/
def run : List Step → List β → σ → Option (β × σ)
  | [], [b], s => some (b, s)
  | .visit (.condition c) :: steps, results, s =>
    let (b, s) := v.condition c s
    run steps (b :: results) s
  | .visit (.logical c l r) :: steps, results, s =>
    run (.visit l :: .visit r :: .join c :: steps) results s
  | .visit (.array path f) :: steps, results, s =>
    run (.visit f :: .wrap path :: steps) results s
  | .join c :: steps, right :: left :: results, s =>
    let (b, s) := v.logical c left right s
    run steps (b :: results) s
  | .wrap path :: steps, inner :: results, s =>
    let (b, s) := v.array path inner s
    run steps (b :: results) s
  | _, _, _ => none
termination_by steps => workload Step.weight steps
decreasing_by all_goals simp [Step.weight, Filter.nodes]; try omega

/-- The steps for a filter leave its result and take nothing away. -/
theorem run_visit (f : Filter) (steps : List Step) (results : List β) (s : σ) :
    v.run (.visit f :: steps) results s =
      v.run steps ((v.result f s).1 :: results) (v.result f s).2 := by
  induction f generalizing steps results s with
  | condition c => rw [run, result]; rfl
  | logical c l r ihl ihr => rw [run, ihl, ihr, run, result]; rfl
  | array path f ih => rw [run, ih, run, result]; rfl

theorem run_singleton (f : Filter) (s : σ) : v.run [.visit f] [] s = some (v.result f s) := by
  rw [run_visit, run]; rfl

end Visitor

namespace Filter

/-- Visits every node of a filter once, the left operand of a connective before the right one and
both before the connective. -/
def fold {σ β : Type} (v : Visitor σ β) (f : Filter) : StateM σ β := fun s =>
  (v.run [.visit f] [] s).get (by simp [v.run_singleton])

theorem fold_eq {σ β : Type} (v : Visitor σ β) (f : Filter) : f.fold v = v.result f := by
  funext s
  simp [fold, v.run_singleton]

/-- Builds each node again. -/
def builder : Visitor Unit Filter where
  condition c := pure (.condition c)
  logical c l r := pure (.logical c l r)
  array path f := pure (.array path f)

/-- A copy of a filter, built node by node. -/
def copy (f : Filter) : Filter := (f.fold builder ()).1

end Filter

end ScimQuery
