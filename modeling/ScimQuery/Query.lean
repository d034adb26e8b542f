import ScimQuery.Filter.Basic
import ScimQuery.Json
import ScimQuery.Pattern

/-!
# Queries

A filter is compiled to a query document. A condition becomes a document about its path
(`Condition.query_eq` lists them), an array filter asks that some element of an array match, and a
whole run of one connective becomes a single list of queries, however its operands were grouped.

`Filter.operands` gathers such a run. `Filter.compile` works off a list of steps, so that neither
long runs nor long alternations need deep recursion, and `runSteps_visit` says that each step finds
as many queries as it counts on. The result is therefore always there.
-/

namespace ScimQuery

/-! ### Conditions -/

namespace Operand

/-- The value of an operand in a query; a number that is not finite has none. -/
def toJson : Operand → Json
  | .text s => .string s
  | .integer n => .integer n.toInt
  | .real x => if x.isFinite then .real x else .null
  | .boolean b => .boolean b

end Operand

namespace Condition

/-- The operand of a condition in a query, or null if there is none. -/
def value (c : Condition) : Json := (c.operand.map Operand.toJson).getD .null

/-- The pattern that matches the text of the operand, or the empty one if there is none. -/
def pattern (c : Condition) : String := (c.operand.map fun x => Pattern.escape x.display).getD ""

/-- The document that asks for a match of a pattern in either case of its letters. -/
def search (pattern : String) : Json :=
  .object [("$options", .string "i"), ("$regex", .string pattern)]

/-- What a condition asks of the attribute at its path. -/
def test (c : Condition) : Json :=
  match c.comparator with
  | .arrayContains => c.value
  | .contains => search c.pattern
  | .equal => .single "$eq" c.value
  | .endsWith => search (c.pattern ++ "$")
  | .greaterEqual => .single "$gte" c.value
  | .greaterThan => .single "$gt" c.value
  | .lessEqual => .single "$lte" c.value
  | .lessThan => .single "$lt" c.value
  | .present => .single "$exists" (.boolean true)
  | .startsWith => search ("^" ++ c.pattern)

/-- The query for a condition. -/
def query (c : Condition) : Json := .single c.path c.test

/-- The queries for all conditions, with their keys. Without an operand a comparison asks for null
and a search for the empty text. -/
theorem query_eq (path : String) (comparator : Comparator) (operand : Option Operand) :
    let value := (operand.map Operand.toJson).getD .null
    let text := (operand.map fun x => Pattern.escape x.display).getD ""
    query ⟨path, comparator, operand⟩ = .object [(path,
      match comparator with
      | .arrayContains => value
      | .contains => .object [("$options", .string "i"), ("$regex", .string text)]
      | .equal => .object [("$eq", value)]
      | .endsWith => .object [("$options", .string "i"), ("$regex", .string (text ++ "$"))]
      | .greaterEqual => .object [("$gte", value)]
      | .greaterThan => .object [("$gt", value)]
      | .lessEqual => .object [("$lte", value)]
      | .lessThan => .object [("$lt", value)]
      | .present => .object [("$exists", .boolean true)]
      | .startsWith =>
        .object [("$options", .string "i"), ("$regex", .string ("^" ++ text))])] := by
  cases comparator <;> rfl

end Condition

/-! ### Runs of one connective -/

namespace Filter

/-- Appends the operands of runs of `c` at the roots of the pending filters to the reversed list
`out`. -/
def operandsOnto (c : Connective) (out : List Filter) : List Filter → List Filter
  | [] => out.reverse
  | .logical d l r :: pending =>
    if c = d then operandsOnto c out (l :: r :: pending)
    else operandsOnto c (.logical d l r :: out) pending
  | f :: pending => operandsOnto c (f :: out) pending
termination_by pending => workload nodes pending
decreasing_by
  · simp [nodes]; omega
  · simp [nodes]
  · have := nodes_pos f
    rw [workload_cons]
    omega

/-- The operands of the run of the connective `c` at the root of a filter, from left to right; the
filter alone if there is no such run. -/
def operands (c : Connective) : Filter → List Filter
  | .logical d l r => if c = d then operands c l ++ operands c r else [.logical d l r]
  | f => [f]

theorem operandsOnto_eq (c : Connective) (out pending : List Filter) :
    operandsOnto c out pending = out.reverse ++ pending.flatMap (operands c) := by
  fun_induction operandsOnto c out pending with
  | case1 => simp
  | case2 out l r pending ih => simp [ih, operands]
  | case3 out d l r pending h ih => simp [ih, operands, h]
  | case4 out f pending hf ih =>
    have : operands c f = [f] := by
      cases f with
      | logical d l r => exact absurd rfl (hf d l r)
      | _ => rfl
    simp [ih, this]

theorem workload_operands (c : Connective) (f : Filter) :
    workload nodes (f.operands c) ≤ f.nodes := by
  induction f with
  | condition t => simp [operands, nodes]
  | array path f _ => simp [operands, nodes]
  | logical d l r ihl ihr =>
    simp only [operands]
    split
    · simp only [workload_append, nodes]; omega
    · simp

theorem nodes_lt_of_mem_operands {c : Connective} {l r f : Filter}
    (h : f ∈ l.operands c ++ r.operands c) : f.nodes < (Filter.logical c l r).nodes := by
  have hf := le_workload_of_mem nodes h
  have hl := workload_operands c l
  have hr := workload_operands c r
  simp only [workload_append, nodes] at *
  omega

/-! ### By recursion -/

/-- The query for a filter. -/
def query : Filter → Json
  | .condition c => c.query
  | .logical c l r =>
    .single c.queryKey (.array ((l.operands c ++ r.operands c).attach.map fun f => query f.1))
  | .array path f => .single path (.single "$elemMatch" f.query)
termination_by f => f.nodes
decreasing_by
  · exact nodes_lt_of_mem_operands f.2
  · simp [nodes]

@[simp] theorem query_condition (c : Condition) : query (.condition c) = c.query := by rw [query]

/-- A connective asks for the queries of the operands of its whole run. -/
theorem query_logical (c : Connective) (l r : Filter) :
    query (.logical c l r) =
      .single c.queryKey (.array ((l.operands c ++ r.operands c).map query)) := by
  rw [query]; simp

@[simp] theorem query_array (path : String) (f : Filter) :
    query (.array path f) = .single path (.single "$elemMatch" f.query) := by rw [query]

/-! ### By steps -/

/-- What is left to do in a compilation. -/
inductive QueryStep
  /-- Compile a filter and leave its query. -/
  | visit (filter : Filter)
  /-- Join the queries that were left last, so many of them, by a connective. -/
  | join (connective : Connective) (count : Nat)
  /-- Apply the query that was left last to the elements of an attribute. -/
  | wrap (path : String)

/-- A measure of the work that a step takes. -/
def QueryStep.weight : QueryStep → Nat
  | .visit f => 2 * f.nodes
  | .join _ _ => 1
  | .wrap _ => 1

theorem workload_visits (fs : List Filter) :
    workload QueryStep.weight (fs.map .visit) = 2 * workload nodes fs := by
  induction fs with
  | nil => rfl
  | cons f fs ih =>
    simp only [List.map_cons, workload_cons, QueryStep.weight, ih]
    omega

theorem workload_operandsOnto (c : Connective) (l r : Filter) :
    workload nodes (operandsOnto c [] [l, r]) ≤ l.nodes + r.nodes := by
  have hl := workload_operands c l
  have hr := workload_operands c r
  simp [operandsOnto_eq]
  omega

/-- Works off steps, with the queries that earlier steps left, the last one first. There is no
answer if a step misses a query that it needs or if more than one is left over. -/
def runSteps : List QueryStep → List Json → Option Json
  | [], [query] => some query
  | .visit (.condition c) :: steps, queries => runSteps steps (c.query :: queries)
  | .visit (.logical c l r) :: steps, queries =>
    let run := operandsOnto c [] [l, r]
    runSteps (run.map .visit ++ .join c run.length :: steps) queries
  | .visit (.array path f) :: steps, queries => runSteps (.visit f :: .wrap path :: steps) queries
  | .join c count :: steps, queries =>
    if count ≤ queries.length then
      let joined : Json := .single c.queryKey (.array (queries.take count).reverse)
      runSteps steps (joined :: queries.drop count)
    else none
  | .wrap path :: steps, inner :: queries =>
    runSteps steps (.single path (.single "$elemMatch" inner) :: queries)
  | _, _ => none
termination_by steps => workload QueryStep.weight steps
decreasing_by
  · simp [QueryStep.weight, nodes]
  · have := workload_operandsOnto c l r
    simp only [workload_append, workload_visits, workload_cons, QueryStep.weight, nodes]
    omega
  · simp [QueryStep.weight, nodes]; omega
  · simp [QueryStep.weight]
  · simp [QueryStep.weight]

/-- The steps for filters leave their queries and take nothing away, if those for each one do. -/
theorem runSteps_visits {fs : List Filter}
    (h : ∀ f ∈ fs, ∀ steps queries,
      runSteps (.visit f :: steps) queries = runSteps steps (f.query :: queries))
    (steps : List QueryStep) (queries : List Json) :
    runSteps (fs.map .visit ++ steps) queries =
      runSteps steps ((fs.map query).reverse ++ queries) := by
  induction fs generalizing queries with
  | nil => rfl
  | cons f fs ih =>
    rw [List.map_cons, List.cons_append, h f (by simp), ih fun g hg => h g (by simp [hg])]
    simp

/-- The steps for a filter leave its query and take nothing away. -/
theorem runSteps_visit (f : Filter) (steps : List QueryStep) (queries : List Json) :
    runSteps (.visit f :: steps) queries = runSteps steps (f.query :: queries) := by
  induction hn : f.nodes using Nat.strongRecOn generalizing f steps queries with
  | _ n ih =>
    subst hn
    cases f with
    | condition c => rw [runSteps, query_condition]
    | array path f =>
      rw [runSteps, ih f.nodes (by simp [nodes]) f _ _ rfl, runSteps, query_array]
    | logical c l r =>
      have hrun : operandsOnto c [] [l, r] = l.operands c ++ r.operands c := by
        simp [operandsOnto_eq]
      have hvisit : ∀ f ∈ l.operands c ++ r.operands c, ∀ steps queries,
          runSteps (.visit f :: steps) queries = runSteps steps (f.query :: queries) := by
        exact fun f hf steps queries => ih f.nodes (nodes_lt_of_mem_operands hf) f steps queries rfl
      rw [runSteps, hrun, runSteps_visits hvisit, runSteps, query_logical]
      have hlen : (l.operands c ++ r.operands c).length =
          ((l.operands c ++ r.operands c).map query).reverse.length := by
        simp only [List.length_reverse, List.length_map]
      rw [if_pos (by simp; omega), List.take_left' hlen.symm, List.drop_left' hlen.symm,
        List.reverse_reverse]

/-- Compiling a filter by steps never fails, and gives the query that recursion gives. -/
theorem runSteps_singleton (f : Filter) : runSteps [.visit f] [] = some f.query := by
  rw [runSteps_visit, runSteps]

/-- Compiles a filter to a query. -/
def compile (f : Filter) : Json := (runSteps [.visit f] []).get (by simp [runSteps_singleton])

/-- The query for a filter that may be missing. Without a filter everything matches. -/
def compileOptional : Option Filter → Json
  | some f => f.compile
  | none => .object []

end Filter

end ScimQuery
