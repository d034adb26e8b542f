import ScimQuery.Proofs.Rounds
import ScimQuery.Proofs.Runs

/-!
# A compilation round by round

`Filter.compile` works off a list of steps and keeps the queries that they leave in a list of its
own. A `Compilation` is what it holds at one moment, and `Round` says how it goes on from there,
also where it finds less than it needs: without a query to apply to the elements of an attribute it
takes the empty document, and without enough queries to join it cannot go on at all.

It never comes to that. The query that `runSteps` makes of a state is the same before and after a
round (`Round.outcome_eq`), and it makes none of a state that lacks a query (`supplied_of_outcome`).
Since there is a query for the first state, no later one lacks any, and the last one holds nothing
else than the query that recursion gives (`compile_by_rounds`).
-/

namespace ScimQuery

namespace Filter

/-- What a compilation holds between two rounds. -/
structure Compilation where
  steps : List QueryStep
  /-- The queries that earlier steps have left, the last one first. -/
  queries : List Json

namespace Compilation

/-- The compilation of a filter before its first round. -/
def start (f : Filter) : Compilation := ⟨[.visit f], []⟩

/-- One round takes the first step and works it off. -/
inductive Round : Compilation → Compilation → Prop
  | condition (test : Condition) (steps : List QueryStep) (queries : List Json) :
      Round ⟨.visit (.condition test) :: steps, queries⟩ ⟨steps, test.query :: queries⟩
  | logical (c : Connective) (l r : Filter) (steps : List QueryStep) (queries : List Json) :
      Round ⟨.visit (.logical c l r) :: steps, queries⟩
        ⟨(operandsOnto c [] [l, r]).map .visit ++
          .join c (operandsOnto c [] [l, r]).length :: steps, queries⟩
  | array (path : String) (f : Filter) (steps : List QueryStep) (queries : List Json) :
      Round ⟨.visit (.array path f) :: steps, queries⟩ ⟨.visit f :: .wrap path :: steps, queries⟩
  | join (c : Connective) {count : Nat} (steps : List QueryStep) {queries : List Json}
      (h : count ≤ queries.length) :
      Round ⟨.join c count :: steps, queries⟩
        ⟨steps, .single c.queryKey (.array (queries.take count).reverse) :: queries.drop count⟩
  | wrap (path : String) (steps : List QueryStep) (query : Json) (queries : List Json) :
      Round ⟨.wrap path :: steps, query :: queries⟩
        ⟨steps, .single path (.single "$elemMatch" query) :: queries⟩
  /-- The empty document stands in for a query that is missing. -/
  | wrapEmpty (path : String) (steps : List QueryStep) :
      Round ⟨.wrap path :: steps, []⟩
        ⟨steps, [.single path (.single "$elemMatch" (.object []))]⟩

/-- Some number of rounds leads from one state to another. -/
def Reaches : Compilation → Compilation → Prop := Relation.ReflTransGen Round

/-- Whether the first step finds the queries that it needs. -/
structure Supplied (s : Compilation) : Prop where
  join : ∀ c count steps, s.steps = .join c count :: steps → count ≤ s.queries.length
  wrap : ∀ path steps, s.steps = .wrap path :: steps → s.queries ≠ []

/-! ### What a round keeps -/

/-- The query that comes of a state, if none is missing on the way. -/
def outcome (s : Compilation) : Option Json := runSteps s.steps s.queries

theorem outcome_start (f : Filter) : (start f).outcome = some f.compile := by
  rw [compile_eq_query]
  exact runSteps_singleton f

/-- A state of which a query comes lacks none for its next round, and is left with that query when
there are no more steps. -/
theorem supplied_of_outcome {s : Compilation} {query : Json} (h : s.outcome = some query) :
    s.Supplied ∧ (s.steps = [] → s.queries = [query]) := by
  obtain ⟨steps, queries⟩ := s
  unfold outcome at h
  refine ⟨⟨?_, ?_⟩, ?_⟩
  · rintro c count rest rfl
    rw [runSteps] at h
    by_contra hcount
    simp [hcount] at h
  · rintro path rest rfl rfl
    simp [runSteps] at h
  · rintro rfl
    rcases queries with _ | ⟨first, _ | ⟨second, queries⟩⟩
    · simp [runSteps] at h
    · simpa [runSteps] using h
    · simp [runSteps] at h

/-- A round does not change which query comes of a state. -/
theorem Round.outcome_eq {s s' : Compilation} {query : Json} (hround : Round s s')
    (h : s.outcome = some query) : s'.outcome = some query := by
  unfold outcome at h ⊢
  cases hround with
  | condition test steps queries => rwa [runSteps] at h
  | logical c l r steps queries => rwa [runSteps] at h
  | array path f steps queries => rwa [runSteps] at h
  | join c steps hcount => rwa [runSteps, if_pos hcount] at h
  | wrap path steps inner queries => rwa [runSteps] at h
  | wrapEmpty path steps => simp [runSteps] at h

theorem Reaches.outcome_eq {s s' : Compilation} {query : Json} (hrun : s.Reaches s')
    (h : s.outcome = some query) : s'.outcome = some query :=
  holds_of_reaches (P := fun s => s.outcome = some query)
    (fun _ _ hround => hround.outcome_eq) hrun h

/-! ### The end of a compilation -/

/-- The work that is left gets less with every round. -/
theorem Round.workload_lt {s s' : Compilation} (h : Round s s') :
    workload QueryStep.weight s'.steps < workload QueryStep.weight s.steps := by
  cases h with
  | logical c l r steps queries =>
    have hrun := workload_operandsOnto c l r
    simp only [workload_append, workload_visits, workload_cons, QueryStep.weight, nodes]
    omega
  | array path f steps queries =>
    simp only [workload_cons, QueryStep.weight, nodes]
    omega
  | _ => simp [QueryStep.weight, nodes]

/-- A state that is supplied and has a step left goes on. -/
theorem Supplied.exists_round {s : Compilation} (h : s.Supplied) (hne : s.steps ≠ []) :
    ∃ s', Round s s' := by
  obtain ⟨steps, queries⟩ := s
  match steps with
  | [] => exact absurd rfl hne
  | .visit (.condition test) :: steps => exact ⟨_, .condition test steps queries⟩
  | .visit (.logical c l r) :: steps => exact ⟨_, .logical c l r steps queries⟩
  | .visit (.array path f) :: steps => exact ⟨_, .array path f steps queries⟩
  | .join c count :: steps => exact ⟨_, .join c steps (h.join c count steps rfl)⟩
  | .wrap path :: steps =>
    match queries with
    | [] => exact absurd rfl (h.wrap path steps rfl)
    | query :: queries => exact ⟨_, .wrap path steps query queries⟩

/-- No compilation goes on for ever. -/
theorem wellFounded_round : WellFounded fun s' s => Round s s' :=
  wellFounded_of_workload_lt fun _ _ => Round.workload_lt

/-- A state of which a query comes ends with that query and nothing else. -/
theorem reaches_of_outcome {s : Compilation} {query : Json} (h : s.outcome = some query) :
    s.Reaches ⟨[], [query]⟩ := by
  refine reaches_of_progress (P := fun s => s.outcome = some query) wellFounded_round
    (fun _ _ hround => hround.outcome_eq) (fun s h => ?_) h
  obtain ⟨hsupplied, hend⟩ := supplied_of_outcome h
  by_cases hsteps : s.steps = []
  · obtain ⟨steps, queries⟩ := s
    obtain rfl : steps = [] := hsteps
    obtain rfl : queries = [query] := hend rfl
    exact .inl rfl
  · exact .inr (hsupplied.exists_round hsteps)

end Compilation

/-- The query for a filter is given by recursion: that for its condition, that for the elements of
an array, or those for all operands of a run. The compilation by rounds comes to it for every
filter: no round finds fewer queries than it needs, so that the empty document never stands in for
one, and the end, which every run comes to, is that query alone. -/
theorem compile_by_rounds :
    (∀ test, compile (.condition test) = test.query) ∧
      (∀ path f, compile (.array path f) = .single path (.single "$elemMatch" f.compile)) ∧
      (∀ c l r, compile (.logical c l r) =
        .single c.queryKey (.array ((l.operands c ++ r.operands c).map compile))) ∧
      (WellFounded fun s' s => Compilation.Round s s') ∧
      ∀ f s, (Compilation.start f).Reaches s →
        s.Supplied ∧ (s.steps = [] → s.queries = [f.compile]) ∧ s.Reaches ⟨[], [f.compile]⟩ := by
  refine ⟨compile_condition, compile_array, compile_logical, Compilation.wellFounded_round,
    fun f s hrun => ?_⟩
  have houtcome : s.outcome = some f.compile := hrun.outcome_eq (Compilation.outcome_start f)
  obtain ⟨hsupplied, hend⟩ := Compilation.supplied_of_outcome houtcome
  exact ⟨hsupplied, hend, Compilation.reaches_of_outcome houtcome⟩

end Filter

end ScimQuery
