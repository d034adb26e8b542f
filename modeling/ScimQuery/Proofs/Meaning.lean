import ScimQuery.Proofs.Runs

/-!
# What filters and queries mean

A filter and the query that it is compiled to are both tests of an element: a resource, or a member
of one of its arrays. `Filter.Holds` and `Json.Holds` say what they mean, each by recursion on its
own form, where an `Interpretation` decides what the members of an array are and which elements meet
a document about one path. `Json.Holds` has the keys of a document written out and does not look at
`Connective.queryKey`, so that another key there would give queries of another meaning.

The two agree on every filter whose paths are words. A path that is the key of a connective would
give a document that is read as a list of queries.
-/

namespace ScimQuery

universe u

/-- What is taken for granted about elements. -/
structure Interpretation (E : Type u) where
  /-- Whether an element is a member of the array at a path of another one. -/
  member : E → String → E → Prop
  /-- Whether an element meets a document about one path. -/
  leaf : E → Json → Prop

variable {E : Type u}

/-! ### The meaning of a query -/

namespace Connective

/-- Two statements joined by a connective. -/
def Both (c : Connective) (p q : Prop) : Prop :=
  match c with
  | .and => p ∧ q
  | .or => p ∨ q

/-- A property of the items of a list, all of them or at least one. -/
def Joins {α : Type} (c : Connective) (P : α → Prop) (items : List α) : Prop :=
  match c with
  | .and => ∀ x ∈ items, P x
  | .or => ∃ x ∈ items, P x

theorem joins_append {α : Type} (c : Connective) (P : α → Prop) (front back : List α) :
    c.Joins P (front ++ back) ↔ c.Both (c.Joins P front) (c.Joins P back) := by
  cases c with
  | and => exact List.forall_mem_append
  | or => simp [Joins, Both, or_and_right, exists_or]

@[simp] theorem joins_singleton {α : Type} (c : Connective) (P : α → Prop) (x : α) :
    c.Joins P [x] ↔ P x := by
  cases c <;> simp [Joins]

theorem joins_congr {α : Type} {P Q : α → Prop} {items : List α} (c : Connective)
    (h : ∀ x ∈ items, P x ↔ Q x) : c.Joins P items ↔ c.Joins Q items := by
  cases c with
  | and => exact forall₂_congr h
  | or => exact exists_congr fun x => and_congr_right (h x)

theorem joins_map {α β : Type} (c : Connective) (f : α → β) (P : β → Prop) (items : List α) :
    c.Joins P (items.map f) ↔ c.Joins (fun x => P (f x)) items := by
  cases c with
  | and => exact List.forall_mem_map
  | or =>
    constructor
    · rintro ⟨y, hy, hp⟩
      obtain ⟨x, hx, rfl⟩ := List.mem_map.mp hy
      exact ⟨x, hx, hp⟩
    · rintro ⟨x, hx, hp⟩
      exact ⟨f x, List.mem_map_of_mem hx, hp⟩

end Connective

theorem Json.sizeOf_lt_of_mem_queries {key : String} {queries : List Json} {query : Json}
    (h : query ∈ queries) : sizeOf query < sizeOf (object [(key, .array queries)]) := by
  have hlt := List.sizeOf_lt_of_mem h
  simp
  omega

/-- Whether a query holds on an element. The keys "$and" and "$or" demand a list of queries. -/
def Json.Holds (I : Interpretation E) (e : E) : Json → Prop
  | .object [(key, .array queries)] =>
    if key = "$and" then ∀ q : { q // q ∈ queries }, Json.Holds I e q.1
    else if key = "$or" then ∃ q : { q // q ∈ queries }, Json.Holds I e q.1
    else I.leaf e (.single key (.array queries))
  | .object [(key, .object [(test, query)])] =>
    if key = "$and" ∨ key = "$or" then False
    else if test = "$elemMatch" then ∃ x, I.member e key x ∧ Json.Holds I x query
    else I.leaf e (.single key (.single test query))
  | .object [(key, test)] =>
    if key = "$and" ∨ key = "$or" then False else I.leaf e (.single key test)
  | document => I.leaf e document
termination_by query => query
decreasing_by
  · exact sizeOf_lt_of_mem_queries q.2
  · exact sizeOf_lt_of_mem_queries q.2
  · simp
    omega

/-! ### The meaning of a filter -/

/-- Whether a filter holds on an element. A condition means what its document does. -/
def Filter.Holds (I : Interpretation E) (e : E) : Filter → Prop
  | .condition c => I.leaf e (compile (.condition c))
  | .logical c l r => c.Both (l.Holds I e) (r.Holds I e)
  | .array path f => ∃ x, I.member e path x ∧ f.Holds I x

/-! ### Runs of one connective -/

namespace Filter

variable (I : Interpretation E)

/-- A filter holds if and only if the operands of its run do, joined by the connective. -/
theorem joins_operands (e : E) (c : Connective) (f : Filter) :
    c.Joins (Holds I e) (f.operands c) ↔ f.Holds I e := by
  induction f with
  | condition test => simp [operands]
  | array path f _ => simp [operands]
  | logical d l r ihl ihr =>
    by_cases h : c = d
    · subst h
      rw [operands, if_pos rfl, Connective.joins_append, Holds]
      cases c with
      | and => exact and_congr ihl ihr
      | or => exact or_congr ihl ihr
    · rw [operands, if_neg h, Connective.joins_singleton]

end Filter

/-! ### The documents of a query -/

namespace Json

variable (I : Interpretation E) (e : E)

theorem holds_join (c : Connective) (queries : List Json) :
    (single c.queryKey (.array queries)).Holds I e ↔ c.Joins (Json.Holds I e) queries := by
  cases c with
  | and =>
    rw [Connective.queryKey_and, single, Holds, if_pos rfl]
    exact Subtype.forall
  | or =>
    rw [Connective.queryKey_or, single, Holds, if_neg (by decide), if_pos rfl]
    simp only [Subtype.exists, exists_prop]
    rfl

theorem holds_member {path : String} (h : Token.IsWord path) (query : Json) :
    (single path (single "$elemMatch" query)).Holds I e ↔
      ∃ x, I.member e path x ∧ query.Holds I x := by
  rw [single, single, Holds, if_neg h.ne_joinKey, if_pos rfl]

theorem holds_leaf {path : String} (h : Token.IsWord path) {test : Json}
    (harray : ∀ queries, test ≠ .array queries)
    (hmember : ∀ query, test ≠ single "$elemMatch" query) :
    (single path test).Holds I e ↔ I.leaf e (single path test) := by
  have hkey := h.ne_joinKey
  cases test with
  | array queries => exact absurd rfl (harray queries)
  | object fields =>
    -- only a document of one field could be a query on members
    match fields with
    | [(test, query)] =>
      have htest : test ≠ "$elemMatch" := by
        rintro rfl
        exact hmember query rfl
      rw [single, Holds, if_neg hkey, if_neg htest]
      rfl
    | [] => simp only [single, Holds, if_neg hkey]
    | _ :: _ :: _ => simp only [single, Holds, if_neg hkey]
  | _ => simp only [single, Holds, if_neg hkey]

end Json

namespace Condition

/-- A document about a path is not taken for anything else. -/
theorem holds_query (I : Interpretation E) (e : E) {c : Condition} (h : Token.IsWord c.path) :
    c.query.Holds I e ↔ I.leaf e c.query :=
  Json.holds_leaf I e h c.test_ne.1 c.test_ne.2

end Condition

namespace Filter

/-- The query for a filter holds where the filter does. -/
theorem query_holds_iff (I : Interpretation E) (e : E) {f : Filter} (hf : f.WellFormed) :
    f.query.Holds I e ↔ f.Holds I e := by
  induction f using run_induction generalizing e with
  | condition c =>
    rw [query_condition, c.holds_query I e hf.isWord_path, Holds, compile_eq_query, query_condition]
  | array path f ih =>
    -- the members of the array are other elements, for which the query holds by induction
    rw [query_array, Json.holds_member I e hf.1, Holds]
    have hinner : ∀ x, f.query.Holds I x ↔ f.Holds I x := fun x => ih x hf.2
    simp only [hinner]
  | logical c l r ih =>
    -- the operands of the whole run are queries of their own
    have hrun : ∀ g ∈ l.operands c ++ r.operands c, g.query.Holds I e ↔ g.Holds I e := fun g hg =>
      ih g hg e (wellFormed_of_mem_run hg hf)
    calc (query (.logical c l r)).Holds I e
        ↔ c.Joins (fun g => (query g).Holds I e) (l.operands c ++ r.operands c) := by
          rw [query_logical, Json.holds_join, Connective.joins_map]
      _ ↔ c.Joins (Holds I e) (l.operands c ++ r.operands c) := Connective.joins_congr c hrun
      _ ↔ c.Joins (Holds I e) ((logical c l r).operands c) := by rw [operands, if_pos rfl]
      _ ↔ (logical c l r).Holds I e := joins_operands I e c _

/-- The query for a filter that comes from a text holds where the filter does, whatever the members
of arrays are and however documents about one path are decided. -/
theorem compile_holds_iff {text : String} {limit : Nat} {f : Filter}
    (h : parse text limit = .ok (some f)) (I : Interpretation E) (e : E) :
    f.compile.Holds I e ↔ f.Holds I e := by
  rw [compile_eq_query]
  exact query_holds_iff I e (wellFormed_of_parse h)

/-- An element is the list of its attributes, and every array has one member with a type. -/
theorem compile_holds_of_attributes :
    parse "a pr and (b pr or emails[type pr])" 2 =
        .ok (some (.logical .and (.condition ⟨"a", .present, none⟩)
          (.logical .or (.condition ⟨"b", .present, none⟩)
            (.array "emails" (.condition ⟨"type", .present, none⟩))))) ∧
      (compile (.logical .and (.condition ⟨"a", .present, none⟩)
        (.logical .or (.condition ⟨"b", .present, none⟩)
          (.array "emails" (.condition ⟨"type", .present, none⟩))))).Holds
        ⟨fun e path x => path ∈ e ∧ x = ["type"],
          fun e document => ∃ path ∈ e, document = compile (.condition ⟨path, .present, none⟩)⟩
        ["a", "emails"] := by
  have hparse : parse "a pr and (b pr or emails[type pr])" 2 =
      .ok (some (.logical .and (.condition ⟨"a", .present, none⟩)
        (.logical .or (.condition ⟨"b", .present, none⟩)
          (.array "emails" (.condition ⟨"type", .present, none⟩))))) := by
    have htokens : Token.tokenize "a pr and (b pr or emails[type pr])" =
        [.word "a", .word "pr", .word "and", .opening .round, .word "b", .word "pr", .word "or",
          .word "emails", .opening .square, .word "type", .word "pr", .closing .square,
          .closing .round] := by decide +kernel
    exact parse_of_tokens (by decide) htokens rfl
  refine ⟨hparse, (compile_holds_iff hparse _ _).mpr ⟨?_, .inr ⟨["type"], ?_, ?_⟩⟩⟩
  · exact ⟨"a", by simp, rfl⟩
  · exact ⟨by simp, rfl⟩
  · exact ⟨"type", by simp, rfl⟩

end Filter

end ScimQuery
