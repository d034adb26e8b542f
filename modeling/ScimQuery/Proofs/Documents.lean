import ScimQuery.Proofs.Runs
import ScimQuery.Query.OfText

/-!
# The documents that filters become

`Json.IsQuery` is the grammar of query documents. A document is a list of queries under the key of a
connective, a query on the members of an array, or a test of one path, where all paths are words and
no value that a test compares with is null. `queryOfText_isQuery` says that a filter becomes such a
document, whatever its text is, unless it is blank and becomes the empty document, which matches
everything.

The operands of a connective are at least two, and none of them is a list of queries under the same
key: this is what gathering the operands of whole runs is for. All keys are written out in the
grammar, apart from the functions that put them into queries.
-/

namespace ScimQuery

/-! ### The grammar -/

namespace Json

/-- The keys of a document. -/
def keys : Json → List String
  | .object fields => fields.map Prod.fst
  | _ => []

@[simp] theorem keys_single (key : String) (value : Json) : (single key value).keys = [key] := rfl

/-- Whether a value can be compared with an attribute: a text, a truth value, or a finite number
without a sign. -/
inductive IsScalar : Json → Prop
  | string (value : String) : IsScalar (.string value)
  | boolean (value : Bool) : IsScalar (.boolean value)
  | integer {value : Int} (h : 0 ≤ value) : IsScalar (.integer value)
  | real (magnitude : Magnitude) : IsScalar (.real (.finite false magnitude))

/-- The keys of a document that compares an attribute with a value. -/
def comparisonKeys : List String := ["$eq", "$gte", "$gt", "$lte", "$lt"]

/-- Whether a document is the query for some filter. -/
inductive IsQuery : Json → Prop
  /-- All of the queries, or at least one of them. -/
  | join {key : String} {queries : List Json} (hkey : key = "$and" ∨ key = "$or")
      (hlength : 2 ≤ queries.length) (hflat : ∀ query ∈ queries, key ∉ query.keys)
      (h : ∀ query ∈ queries, IsQuery query) : IsQuery (single key (.array queries))
  /-- A query on the members of an array. -/
  | member {path : String} {query : Json} (hpath : Token.IsWord path) (h : IsQuery query) :
      IsQuery (single path (single "$elemMatch" query))
  /-- A value among those at a path. -/
  | value {path : String} {value : Json} (hpath : Token.IsWord path) (hvalue : value.IsScalar) :
      IsQuery (single path value)
  /-- A comparison of the value at a path. -/
  | comparison {path key : String} {value : Json} (hpath : Token.IsWord path)
      (hkey : key ∈ comparisonKeys) (hvalue : value.IsScalar) :
      IsQuery (single path (single key value))
  /-- Any value at a path. -/
  | existence {path : String} (hpath : Token.IsWord path) :
      IsQuery (single path (single "$exists" (.boolean true)))
  /-- A text at a path that matches a pattern in either case of its letters. -/
  | search {path : String} (hpath : Token.IsWord path) (pattern : String) :
      IsQuery (single path (.object [("$options", .string "i"), ("$regex", .string pattern)]))

/-- No query matches everything. -/
theorem IsQuery.ne_empty {query : Json} (h : query.IsQuery) : query ≠ .object [] := by
  rintro rfl
  generalize hempty : Json.object [] = query at h
  cases h <;> simp [single] at hempty

end Json

/-! ### Conditions -/

theorem Operand.isScalar_toJson {x : Operand} (h : x.WellFormed) : x.toJson.IsScalar := by
  cases x with
  | text s => exact .string s
  | integer n => exact .integer h
  | real y =>
    obtain ⟨m, rfl⟩ := h
    exact .real m
  | boolean b => exact .boolean b

theorem Condition.isQuery_query {c : Condition} (h : c.WellFormed) : c.query.IsQuery := by
  obtain ⟨path, comparator, operand⟩ := c
  have hpath : Token.IsWord path := h.isWord_path
  rw [query_eq]
  cases operand with
  | none =>
    obtain rfl : comparator = .present := h.operand_eq_none_iff.mp rfl
    exact .existence hpath
  | some x =>
    have hvalue : x.toJson.IsScalar := Operand.isScalar_toJson (h.operand x rfl)
    cases comparator with
    | arrayContains => exact .value hpath hvalue
    | contains => exact .search hpath _
    | equal => exact .comparison hpath (by decide) hvalue
    | endsWith => exact .search hpath _
    | greaterEqual => exact .comparison hpath (by decide) hvalue
    | greaterThan => exact .comparison hpath (by decide) hvalue
    | lessEqual => exact .comparison hpath (by decide) hvalue
    | lessThan => exact .comparison hpath (by decide) hvalue
    | present => exact .existence hpath
    | startsWith => exact .search hpath _

/-! ### Filters -/

namespace Filter

/-- Only a run of a connective becomes a document with the key of that connective. -/
theorem queryKey_notMem_keys {c : Connective} {f : Filter} (hf : f.WellFormed)
    (h : f.connective? ≠ some c) : c.queryKey ∉ f.query.keys := by
  cases f with
  | condition test =>
    have hpath := Token.IsWord.ne_queryKey hf.isWord_path c
    simpa [Condition.query] using hpath.symm
  | array path f =>
    have hpath := Token.IsWord.ne_queryKey hf.1 c
    simpa using hpath.symm
  | logical d l r =>
    have hne : c ≠ d := fun heq => h (congrArg some heq.symm)
    rw [query_logical, Json.keys_single, List.mem_singleton, Connective.queryKey_inj]
    exact hne

theorem isQuery_query {f : Filter} (hf : f.WellFormed) : f.query.IsQuery := by
  induction f using run_induction with
  | condition test =>
    rw [query_condition]
    exact Condition.isQuery_query hf
  | array path f ih =>
    rw [query_array]
    exact .member hf.1 (ih hf.2)
  | logical c l r ih =>
    have hl : 0 < (l.operands c).length := List.length_pos_iff.mpr (operands_ne_nil c l)
    have hr : 0 < (r.operands c).length := List.length_pos_iff.mpr (operands_ne_nil c r)
    rw [query_logical]
    refine .join c.queryKey_eq_or ?_ ?_ ?_
    · rw [List.length_map, List.length_append]
      omega
    · -- the operands are taken off the whole run, so that none of them is one of the connective
      intro query hquery
      obtain ⟨g, hg, rfl⟩ := List.mem_map.mp hquery
      exact queryKey_notMem_keys (wellFormed_of_mem_run hg hf) (connective?_of_mem_run hg)
    · intro query hquery
      obtain ⟨g, hg, rfl⟩ := List.mem_map.mp hquery
      exact ih g hg (wellFormed_of_mem_run hg hf)

end Filter

/-! ### Texts -/

/-- A text becomes the empty document if it is missing or blank, and otherwise the query for the
filter that it is parsed as. -/
theorem queryOfText_eq_ok_iff {filter : Option String} {limit : Nat} {query : Json} :
    queryOfText filter limit = .ok query ↔
      (∀ text ∈ filter, Text.isBlankText text) ∧ query = .object [] ∨
        ∃ text f, filter = some text ∧ Filter.parse text limit = .ok (some f) ∧
          query = f.compile := by
  cases filter with
  | none =>
    have hempty : queryOfText none limit = .ok (.object []) := rfl
    rw [hempty, Except.ok.injEq, eq_comm]
    simp
  | some text =>
    have hnone : Filter.parse text limit = .ok none ↔ Text.isBlankText text :=
      Filter.parse_eq_ok_none_iff
    rw [queryOfText]
    cases hparse : Filter.parse text limit with
    | error e => simp_all [Except.map]
    | ok f =>
      cases f with
      | none =>
        have hblank : Text.isBlankText text := hnone.mp hparse
        rw [Except.map, Filter.compileOptional, Except.ok.injEq, eq_comm]
        simp [hblank, hparse]
      | some f =>
        have hblank : ¬ Text.isBlankText text := fun h => by simp [hnone.mpr h] at hparse
        rw [Except.map, Filter.compileOptional, Except.ok.injEq, eq_comm]
        simp [hblank, hparse]

/-- A filter becomes the empty document if and only if it is missing or blank, and every other
document that a filter becomes is a query of the grammar. -/
theorem queryOfText_isQuery (filter : Option String) (limit : Nat) :
    (queryOfText filter limit = .ok (.object []) ↔ ∀ text ∈ filter, Text.isBlankText text) ∧
      ∀ query, queryOfText filter limit = .ok query → query ≠ .object [] → query.IsQuery := by
  have hquery : ∀ {text : String} {f : Filter}, Filter.parse text limit = .ok (some f) →
      f.compile.IsQuery := by
    intro text f hparse
    rw [Filter.compile_eq_query]
    exact Filter.isQuery_query (Filter.wellFormed_of_parse hparse)
  constructor
  · rw [queryOfText_eq_ok_iff]
    constructor
    · rintro (⟨hblank, -⟩ | ⟨text, f, -, hparse, hempty⟩)
      · exact hblank
      · exact absurd hempty.symm (hquery hparse).ne_empty
    · exact fun hblank => .inl ⟨hblank, rfl⟩
  · intro query hok hne
    rcases queryOfText_eq_ok_iff.mp hok with ⟨-, hempty⟩ | ⟨text, f, -, hparse, rfl⟩
    · exact absurd hempty hne
    · exact hquery hparse

/-- An operand that looks like an operator stays a text. -/
theorem isQuery_of_operator_text :
    ∃ query, queryOfText (some "a eq \"$where\" and b[c pr or d co \"$gt\"]") 1 = .ok query ∧
      query ≠ .object [] ∧ query.IsQuery := by
  have htokens : Token.tokenize "a eq \"$where\" and b[c pr or d co \"$gt\"]" =
      [.word "a", .word "eq", .quoted "$where", .word "and", .word "b", .opening .square,
        .word "c", .word "pr", .word "or", .word "d", .word "co", .quoted "$gt",
        .closing .square] := by
    decide +kernel
  have hparse : Filter.parse "a eq \"$where\" and b[c pr or d co \"$gt\"]" 1 =
      .ok (some (.logical .and (.condition ⟨"a", .equal, some (.text "$where")⟩)
        (.array "b" (.logical .or (.condition ⟨"c", .present, none⟩)
          (.condition ⟨"d", .contains, some (.text "$gt")⟩))))) :=
    Filter.parse_of_tokens (by decide) htokens rfl
  have hok := queryOfText_eq_ok_iff.mpr (.inr ⟨_, _, rfl, hparse, rfl⟩)
  have hne : queryOfText (some "a eq \"$where\" and b[c pr or d co \"$gt\"]") 1 ≠
      .ok (.object []) := by
    intro hempty
    have hblank := (queryOfText_isQuery _ 1).1.mp hempty _ rfl
    exact absurd hblank (by decide)
  have hquery : _ ≠ Json.object [] := fun hempty => hne (hempty ▸ hok)
  exact ⟨_, hok, hquery, (queryOfText_isQuery _ 1).2 _ hok hquery⟩

end ScimQuery
