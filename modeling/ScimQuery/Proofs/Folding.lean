import ScimQuery.Filter.Postfix
import ScimQuery.Proofs.Rounds

/-!
# The calls of a fold

`Visitor.Folds` says by recursion on a filter which calls a visitor is to get, in which order and
with which results: those for the left operand, those for the right one, and then one for the
connective with the two results, each from the state that the call before has left.

`Filter.fold` gets there without recursion. A `Stage` is what it holds at one moment, and `Round`
says how it goes on from there. No stage that comes of a filter lacks a result
(`Stage.supplied_of_outcome`), and the last one holds the result for the filter, with exactly these
calls behind it (`fold_by_rounds`).
-/

namespace ScimQuery

/-! ### Calls -/

/-- A call of a visitor: what it is given, and its result. -/
inductive Call (β : Type)
  | condition (test : Condition) (result : β)
  | logical (connective : Connective) (left right result : β)
  | array (path : String) (inner result : β)

/-- The node that a call is for. -/
def Call.entry {β : Type} : Call β → Entry
  | .condition test _ => .condition test
  | .logical c _ _ _ => .logical c
  | .array path _ _ => .array path

namespace Filter

/-- The nodes of a filter, those below a node before it and the left ones before the right ones. -/
def postorder : Filter → List Entry
  | .condition test => [.condition test]
  | .logical c l r => l.postorder ++ r.postorder ++ [.logical c]
  | .array path f => f.postorder ++ [.array path]

theorem length_postorder (f : Filter) : f.postorder.length = f.nodes := by
  induction f with
  | condition test => rfl
  | logical c l r ihl ihr => simp [postorder, nodes, ihl, ihr, Nat.add_assoc]
  | array path f ih => simp [postorder, nodes, ih]

end Filter

namespace Visitor

variable {σ β : Type} (v : Visitor σ β)

/-- The calls that a visitor gets for a filter from a state on, with the result for the filter and
the state that they leave. -/
inductive Folds : Filter → σ → List (Call β) → β → σ → Prop
  | condition (test : Condition) (s : σ) :
      Folds (.condition test) s [.condition test (v.condition test s).1] (v.condition test s).1
        (v.condition test s).2
  | logical (c : Connective) {l r : Filter} {s sl sr : σ} {calls calls' : List (Call β)}
      {left right : β} (hl : Folds l s calls left sl) (hr : Folds r sl calls' right sr) :
      Folds (.logical c l r) s
        (calls ++ calls' ++ [.logical c left right (v.logical c left right sr).1])
        (v.logical c left right sr).1 (v.logical c left right sr).2
  | array (path : String) {f : Filter} {s s' : σ} {calls : List (Call β)} {inner : β}
      (h : Folds f s calls inner s') :
      Folds (.array path f) s (calls ++ [.array path inner (v.array path inner s').1])
        (v.array path inner s').1 (v.array path inner s').2

/-- The visitor that keeps its calls beside its state. -/
def logged : Visitor (σ × List (Call β)) β where
  condition test s :=
    let (b, state) := v.condition test s.1
    (b, (state, s.2 ++ [.condition test b]))
  logical c left right s :=
    let (b, state) := v.logical c left right s.1
    (b, (state, s.2 ++ [.logical c left right b]))
  array path inner s :=
    let (b, state) := v.array path inner s.1
    (b, (state, s.2 ++ [.array path inner b]))

/-- The calls that a visitor gets in a fold, in their order. -/
def calls (f : Filter) (s : σ) : List (Call β) := (f.fold v.logged (s, [])).2.2

variable {v}

section Folds

variable {f : Filter} {s s' : σ} {calls : List (Call β)} {b : β}

theorem result_logical (v : Visitor σ β) (c : Connective) (l r : Filter) (s : σ) :
    v.result (.logical c l r) s =
      v.logical c (v.result l s).1 (v.result r (v.result l s).2).1
        (v.result r (v.result l s).2).2 :=
  rfl

theorem result_array (v : Visitor σ β) (path : String) (f : Filter) (s : σ) :
    v.result (.array path f) s = v.array path (v.result f s).1 (v.result f s).2 :=
  rfl

theorem Folds.result_eq (h : v.Folds f s calls b s') : v.result f s = (b, s') := by
  induction h with
  | condition test s => rfl
  | logical c _ _ ihl ihr =>
    rw [result_logical, ihl, ihr]
    rfl
  | array path _ ih =>
    rw [result_array, ih]
    rfl

/-- The calls go behind those that have been kept before. -/
theorem Folds.logged_result_eq (h : v.Folds f s calls b s') (log : List (Call β)) :
    v.logged.result f (s, log) = (b, (s', log ++ calls)) := by
  induction h generalizing log with
  | condition test s => rfl
  | logical c _ _ ihl ihr =>
    rw [result_logical, ihl, ihr, ← List.append_assoc, ← List.append_assoc]
    rfl
  | array path _ ih =>
    rw [result_array, ih, ← List.append_assoc]
    rfl

theorem Folds.map_entry (h : v.Folds f s calls b s') : calls.map Call.entry = f.postorder := by
  induction h with
  | condition test s => rfl
  | logical c _ _ ihl ihr => simp [Filter.postorder, ihl, ihr, Call.entry]
  | array path _ ih => simp [Filter.postorder, ih, Call.entry]

end Folds

/-- There are such calls for every filter. -/
theorem exists_folds (v : Visitor σ β) (f : Filter) (s : σ) :
    ∃ calls, v.Folds f s calls (v.result f s).1 (v.result f s).2 := by
  induction f generalizing s with
  | condition test => exact ⟨_, .condition test s⟩
  | logical c l r ihl ihr =>
    obtain ⟨calls, hl⟩ := ihl s
    obtain ⟨calls', hr⟩ := ihr (v.result l s).2
    exact ⟨_, .logical c hl hr⟩
  | array path f ih =>
    obtain ⟨calls, h⟩ := ih s
    exact ⟨_, .array path h⟩

theorem Folds.calls_eq {f : Filter} {s s' : σ} {calls : List (Call β)} {b : β}
    (h : v.Folds f s calls b s') : v.calls f s = calls := by
  rw [Visitor.calls, Filter.fold_eq, h.logged_result_eq, List.nil_append]

/-- They are the calls of a fold, and with its result. -/
theorem folds_iff {f : Filter} {s s' : σ} {calls : List (Call β)} {b : β} :
    v.Folds f s calls b s' ↔ v.calls f s = calls ∧ f.fold v s = (b, s') := by
  rw [Filter.fold_eq]
  constructor
  · intro h
    exact ⟨h.calls_eq, h.result_eq⟩
  · rintro ⟨rfl, hresult⟩
    obtain ⟨calls, h⟩ := exists_folds v f s
    rw [hresult] at h
    rwa [h.calls_eq]

theorem folds_calls (v : Visitor σ β) (f : Filter) (s : σ) :
    v.Folds f s (v.calls f s) (f.fold v s).1 (f.fold v s).2 :=
  folds_iff.mpr ⟨rfl, rfl⟩

theorem logged_result (v : Visitor σ β) (f : Filter) (s : σ) :
    v.logged.result f (s, []) = ((f.fold v s).1, ((f.fold v s).2, v.calls f s)) := by
  rw [(folds_calls v f s).logged_result_eq, List.nil_append]

/-! ### Catamorphisms -/

/-- Whether a function on filters gives a visitor the results for the operands of each node, and
takes the result for the node from it. -/
structure IsCatamorphism (v : Visitor σ β) (h : Filter → σ → β × σ) : Prop where
  condition : ∀ test s, h (.condition test) s = v.condition test s
  logical : ∀ c l r s, h (.logical c l r) s =
    v.logical c (h l s).1 (h r (h l s).2).1 (h r (h l s).2).2
  array : ∀ path f s, h (.array path f) s = v.array path (h f s).1 (h f s).2

/-- A fold is the only such function. -/
theorem isCatamorphism_iff {h : Filter → σ → β × σ} :
    v.IsCatamorphism h ↔ ∀ f s, h f s = f.fold v s := by
  constructor
  · intro hh f
    rw [Filter.fold_eq]
    induction f with
    | condition test => exact hh.condition test
    | logical c l r ihl ihr =>
      intro s
      rw [hh.logical, ihl, ihr]
      rfl
    | array path f ih =>
      intro s
      rw [hh.array, ih]
      rfl
  · intro hfold
    have hresult : h = v.result := by
      funext f s
      rw [hfold, Filter.fold_eq]
    rw [hresult]
    exact ⟨fun _ _ => rfl, fun _ _ _ _ => rfl, fun _ _ _ => rfl⟩

/-! ### Rounds -/

/-- What a fold holds between two rounds. -/
structure Stage (σ β : Type) where
  steps : List Step
  /-- The results that earlier steps have left, the last one first. -/
  results : List β
  state : σ
  /-- The calls that have been made so far. -/
  calls : List (Call β)

namespace Stage

/-- A fold before its first round. -/
def start (f : Filter) (s : σ) : Stage σ β := ⟨[.visit f], [], s, []⟩

/-- A fold after its last round. -/
def final (v : Visitor σ β) (f : Filter) (s : σ) : Stage σ β :=
  ⟨[], [(f.fold v s).1], (f.fold v s).2, v.calls f s⟩

/-- One round takes the first step and works it off. -/
inductive Round (v : Visitor σ β) : Stage σ β → Stage σ β → Prop
  | condition (test : Condition) (steps : List Step) (results : List β) (s : σ)
      (calls : List (Call β)) :
      Round v ⟨.visit (.condition test) :: steps, results, s, calls⟩
        ⟨steps, (v.condition test s).1 :: results, (v.condition test s).2,
          calls ++ [.condition test (v.condition test s).1]⟩
  | logical (c : Connective) (l r : Filter) (steps : List Step) (results : List β) (s : σ)
      (calls : List (Call β)) :
      Round v ⟨.visit (.logical c l r) :: steps, results, s, calls⟩
        ⟨.visit l :: .visit r :: .join c :: steps, results, s, calls⟩
  | array (path : String) (f : Filter) (steps : List Step) (results : List β) (s : σ)
      (calls : List (Call β)) :
      Round v ⟨.visit (.array path f) :: steps, results, s, calls⟩
        ⟨.visit f :: .wrap path :: steps, results, s, calls⟩
  | join (c : Connective) (steps : List Step) (right left : β) (results : List β) (s : σ)
      (calls : List (Call β)) :
      Round v ⟨.join c :: steps, right :: left :: results, s, calls⟩
        ⟨steps, (v.logical c left right s).1 :: results, (v.logical c left right s).2,
          calls ++ [.logical c left right (v.logical c left right s).1]⟩
  | wrap (path : String) (steps : List Step) (inner : β) (results : List β) (s : σ)
      (calls : List (Call β)) :
      Round v ⟨.wrap path :: steps, inner :: results, s, calls⟩
        ⟨steps, (v.array path inner s).1 :: results, (v.array path inner s).2,
          calls ++ [.array path inner (v.array path inner s).1]⟩

/-- Some number of rounds leads from one stage to another. -/
def Reaches (v : Visitor σ β) : Stage σ β → Stage σ β → Prop := Relation.ReflTransGen (Round v)

/-- Whether the first step finds the results that it needs, and whether there is one at the end. -/
structure Supplied (t : Stage σ β) : Prop where
  join : ∀ c steps, t.steps = .join c :: steps → 2 ≤ t.results.length
  wrap : ∀ path steps, t.steps = .wrap path :: steps → t.results ≠ []
  last : t.steps = [] → t.results ≠ []

/-- What comes of a stage, if no result is missing on the way: the result for the filter, the state
and all calls. -/
def outcome (v : Visitor σ β) (t : Stage σ β) : Option (β × σ × List (Call β)) :=
  v.logged.run t.steps t.results (t.state, t.calls)

theorem outcome_start (v : Visitor σ β) (f : Filter) (s : σ) :
    (start f s).outcome v = some ((f.fold v s).1, (f.fold v s).2, v.calls f s) := by
  rw [← logged_result]
  exact run_singleton v.logged f (s, [])

section

variable {t t' : Stage σ β} {b : β} {s : σ} {calls : List (Call β)}

/-- A stage of which something comes lacks no result for its next round, and is left with what comes
of it when there are no more steps. -/
theorem supplied_of_outcome (h : t.outcome v = some (b, s, calls)) :
    t.Supplied ∧ (t.steps = [] → t = ⟨[], [b], s, calls⟩) := by
  obtain ⟨steps, results, state, log⟩ := t
  unfold outcome at h
  refine ⟨⟨?_, ?_, ?_⟩, ?_⟩
  · rintro c rest rfl
    match results with
    | [] => simp [run] at h
    | [first] => simp [run] at h
    | right :: left :: results => simp
  · rintro path rest rfl rfl
    simp [run] at h
  · rintro rfl rfl
    simp [run] at h
  · rintro rfl
    rcases results with _ | ⟨first, _ | ⟨second, results⟩⟩
    · simp [run] at h
    · simpa [run] using h
    · simp [run] at h

/-- A round does not change what comes of a stage. -/
theorem Round.outcome_eq (hround : Round v t t') (h : t.outcome v = some (b, s, calls)) :
    t'.outcome v = some (b, s, calls) := by
  unfold outcome at h ⊢
  cases hround with
  | condition test steps results s calls =>
    rw [run] at h
    exact h
  | logical c l r steps results s calls =>
    rw [run] at h
    exact h
  | array path f steps results s calls =>
    rw [run] at h
    exact h
  | join c steps right left results s calls =>
    rw [run] at h
    exact h
  | wrap path steps inner results s calls =>
    rw [run] at h
    exact h

theorem Reaches.outcome_eq (hrun : t.Reaches v t') (h : t.outcome v = some (b, s, calls)) :
    t'.outcome v = some (b, s, calls) :=
  holds_of_reaches (P := fun t => t.outcome v = some (b, s, calls))
    (fun _ _ hround => hround.outcome_eq) hrun h

/-- The work that is left gets less with every round. -/
theorem Round.workload_lt (h : Round v t t') :
    workload Step.weight t'.steps < workload Step.weight t.steps := by
  cases h with
  | logical c l r => simp [Step.weight, Filter.nodes]; omega
  | array path f => simp [Step.weight, Filter.nodes]; omega
  | _ => simp [Step.weight, Filter.nodes]

/-- A stage that is supplied and has a step left goes on. -/
theorem Supplied.exists_round (v : Visitor σ β) (h : t.Supplied) (hne : t.steps ≠ []) :
    ∃ t', Round v t t' := by
  obtain ⟨steps, results, state, log⟩ := t
  match steps with
  | [] => exact absurd rfl hne
  | .visit (.condition test) :: steps => exact ⟨_, .condition test steps results state log⟩
  | .visit (.logical c l r) :: steps => exact ⟨_, .logical c l r steps results state log⟩
  | .visit (.array path f) :: steps => exact ⟨_, .array path f steps results state log⟩
  | .join c :: steps =>
    match results, h.join c steps rfl with
    | right :: left :: results, _ => exact ⟨_, .join c steps right left results state log⟩
  | .wrap path :: steps =>
    match results, h.wrap path steps rfl with
    | inner :: results, _ => exact ⟨_, .wrap path steps inner results state log⟩

/-- No fold goes on for ever. -/
theorem wellFounded_round (v : Visitor σ β) : WellFounded fun t' t => Round v t t' :=
  wellFounded_of_workload_lt fun _ _ => Round.workload_lt

/-- A stage of which something comes ends with that. -/
theorem reaches_of_outcome (h : t.outcome v = some (b, s, calls)) :
    t.Reaches v ⟨[], [b], s, calls⟩ := by
  refine reaches_of_progress (P := fun t => t.outcome v = some (b, s, calls))
    (wellFounded_round v) (fun _ _ hround => hround.outcome_eq) (fun t h => ?_) h
  obtain ⟨hsupplied, hend⟩ := supplied_of_outcome h
  by_cases hsteps : t.steps = []
  · exact .inl (hend hsteps)
  · exact .inr (hsupplied.exists_round v hsteps)

end

end Stage

end Visitor

namespace Filter

theorem copy_eq (f : Filter) : f.copy = f := by
  have hcopy : builder.IsCatamorphism fun f s => (f, s) :=
    ⟨fun _ _ => rfl, fun _ _ _ _ => rfl, fun _ _ _ => rfl⟩
  rw [copy, ← Visitor.isCatamorphism_iff.mp hcopy]

/-- A fold is the catamorphism of a visitor. It makes one call for each node of a filter, those for
the operands of a node before the one that is given their results, and each from the state that the
call before has left. No round finds fewer results than it needs, and the end, which every run comes
to, is the result for the filter alone. A copy is the same filter. -/
theorem fold_by_rounds {σ β : Type} (v : Visitor σ β) :
    (∀ h, v.IsCatamorphism h ↔ ∀ f s, h f s = fold v f s) ∧
      (∀ f s calls b s', v.Folds f s calls b s' ↔ v.calls f s = calls ∧ fold v f s = (b, s')) ∧
      (∀ f s, (v.calls f s).map Call.entry = f.postorder ∧ (v.calls f s).length = f.nodes) ∧
      (WellFounded fun t' t => Visitor.Stage.Round v t t') ∧
      (∀ f s t, (Visitor.Stage.start f s).Reaches v t →
        t.Supplied ∧ (t.steps = [] → t = .final v f s) ∧ t.Reaches v (.final v f s)) ∧
      ∀ f : Filter, f.copy = f := by
  refine ⟨fun h => Visitor.isCatamorphism_iff, fun _ _ _ _ _ => Visitor.folds_iff, fun f s => ?_,
    Visitor.Stage.wellFounded_round v, fun f s t hrun => ?_, copy_eq⟩
  · have hentries := (Visitor.folds_calls v f s).map_entry
    exact ⟨hentries, by rw [← List.length_map, hentries, length_postorder]⟩
  · have houtcome := hrun.outcome_eq (Visitor.Stage.outcome_start v f s)
    obtain ⟨hsupplied, hend⟩ := Visitor.Stage.supplied_of_outcome houtcome
    exact ⟨hsupplied, hend, Visitor.Stage.reaches_of_outcome houtcome⟩

end Filter

end ScimQuery
