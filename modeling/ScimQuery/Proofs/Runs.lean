import ScimQuery.Proofs.Parsed
import ScimQuery.Query

/-!
# Runs of one connective

The query for a filter is built along its runs: a connective stands for the queries of all operands
of its run, which lie anywhere below it. `run_induction` is the induction that fits this, and the
operands of a run are well formed if the filter is, never a run of the same connective themselves,
and at least one on each side.

A document holds one key, which is that of a connective or the path of a condition. A path that is a
word is never taken for the key of a connective (`Token.IsWord.ne_joinKey`).
-/

namespace ScimQuery

/-! ### The keys of a query -/

/-- A word is not the key of a connective. -/
theorem Token.IsWord.ne_joinKey {path : String} (h : Token.IsWord path) :
    ¬ (path = "$and" ∨ path = "$or") := by
  have hdollar : '$' ∉ path.toList := fun hmem => absurd (h.2 '$' hmem) (by decide)
  rintro (rfl | rfl)
  · exact hdollar (by decide)
  · exact hdollar (by decide)

theorem Token.IsWord.ne_queryKey {path : String} (h : Token.IsWord path) (c : Connective) :
    path ≠ c.queryKey := by
  rintro rfl
  exact h.ne_joinKey c.queryKey_eq_or

theorem Json.single_inj {key key' : String} {value value' : Json} :
    single key value = single key' value' ↔ key = key' ∧ value = value' := by
  simp [single]

/-! ### What a condition asks for -/

theorem Operand.toJson_ne (x : Operand) :
    (∀ queries, x.toJson ≠ .array queries) ∧ ∀ fields, x.toJson ≠ .object fields := by
  cases x with
  | real y => cases h : y.isFinite <;> simp [toJson, h]
  | _ => simp [toJson]

namespace Condition

theorem value_ne (c : Condition) :
    (∀ queries, c.value ≠ .array queries) ∧ ∀ fields, c.value ≠ .object fields := by
  obtain ⟨path, comparator, operand⟩ := c
  cases operand with
  | none => simp [value]
  | some x => exact x.toJson_ne

/-- What a condition asks for is neither a list of queries nor a query on members. -/
theorem test_ne (c : Condition) :
    (∀ queries, c.test ≠ .array queries) ∧ ∀ query, c.test ≠ .single "$elemMatch" query := by
  obtain ⟨path, comparator, operand⟩ := c
  cases comparator with
  | arrayContains =>
    have hvalue := value_ne ⟨path, .arrayContains, operand⟩
    exact ⟨hvalue.1, fun query => hvalue.2 _⟩
  | _ => simp [test, search, Json.single]

end Condition

/-! ### The operands of a run -/

namespace Filter

theorem operands_ne_nil (c : Connective) (f : Filter) : f.operands c ≠ [] := by
  induction f with
  | condition test => simp [operands]
  | array path f _ => simp [operands]
  | logical d l r ihl _ =>
    rw [operands]
    split
    · simp [ihl]
    · simp

/-- A run ends where the connective changes. -/
theorem connective?_of_mem_operands {c : Connective} {f g : Filter} (h : g ∈ f.operands c) :
    g.connective? ≠ some c := by
  induction f with
  | condition test => simp_all [operands, connective?]
  | array path f _ => simp_all [operands, connective?]
  | logical d l r ihl ihr =>
    rw [operands] at h
    split at h
    · rcases List.mem_append.mp h with h | h
      · exact ihl h
      · exact ihr h
    · rename_i hne
      rw [List.mem_singleton] at h
      rw [h, connective?, ne_eq, Option.some.injEq]
      exact fun heq => hne heq.symm

theorem connective?_of_mem_run {c : Connective} {l r g : Filter}
    (h : g ∈ l.operands c ++ r.operands c) : g.connective? ≠ some c := by
  rcases List.mem_append.mp h with h | h
  · exact connective?_of_mem_operands h
  · exact connective?_of_mem_operands h

theorem wellFormed_of_mem_operands {c : Connective} {f g : Filter} (h : g ∈ f.operands c)
    (hf : f.WellFormed) : g.WellFormed := by
  induction f with
  | condition test => simp_all [operands]
  | array path f _ => simp_all [operands]
  | logical d l r ihl ihr =>
    rw [operands] at h
    split at h
    · rcases List.mem_append.mp h with h | h
      · exact ihl h hf.1
      · exact ihr h hf.2
    · rw [List.mem_singleton] at h
      exact h ▸ hf

theorem wellFormed_of_mem_run {c : Connective} {l r g : Filter}
    (h : g ∈ l.operands c ++ r.operands c) (hf : (logical c l r).WellFormed) : g.WellFormed := by
  rcases List.mem_append.mp h with h | h
  · exact wellFormed_of_mem_operands h hf.1
  · exact wellFormed_of_mem_operands h hf.2

/-- Induction on a filter along its runs. -/
theorem run_induction {P : Filter → Prop} (condition : ∀ test, P (.condition test))
    (array : ∀ path f, P f → P (.array path f))
    (logical : ∀ c l r, (∀ f ∈ l.operands c ++ r.operands c, P f) → P (.logical c l r))
    (f : Filter) : P f := by
  -- by size, since the operands of a run lie deeper in the tree than its two sides
  induction hn : f.nodes using Nat.strongRecOn generalizing f with
  | _ n ih =>
    subst hn
    cases f with
    | condition test => exact condition test
    | array path f => exact array path f (ih f.nodes (by simp [nodes]) f rfl)
    | logical c l r =>
      exact logical c l r fun f hf => ih f.nodes (nodes_lt_of_mem_operands hf) f rfl

theorem compile_eq_query (f : Filter) : f.compile = f.query := by
  simp [compile, runSteps_singleton]

theorem compile_condition (test : Condition) : compile (.condition test) = test.query := by
  rw [compile_eq_query, query_condition]

theorem compile_array (path : String) (f : Filter) :
    compile (.array path f) = .single path (.single "$elemMatch" f.compile) := by
  rw [compile_eq_query, query_array, compile_eq_query]

theorem compile_logical (c : Connective) (l r : Filter) :
    compile (.logical c l r) =
      .single c.queryKey (.array ((l.operands c ++ r.operands c).map compile)) := by
  have hquery : compile = query := funext compile_eq_query
  rw [hquery, query_logical]

end Filter

end ScimQuery
