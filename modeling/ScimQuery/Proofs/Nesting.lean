import Mathlib.Data.Nat.Choose.Basic
import Mathlib.Order.Bounds.Basic
import ScimQuery.Proofs.Canonical
import ScimQuery.Proofs.Documents

/-!
# How deep queries are nested

`Json.Path` follows a document from its root to a leaf and counts the lists of queries on the way.
For the query of a filter the greatest count is `Filter.levels`, the number of runs around its
innermost conditions (`path_query_le`, `path_query_levels`).

The limit of the parser does not bound this number by itself. A switch of the connective wraps all
of the chain before it, with the groups in there, but a group only takes levels while it is open. A
chain whose first term is a group may therefore have as many switches as the limit admits, and the
group may hold another such chain: at the limit `n` a query can be nested `1 + 2 + ... + (n + 1)`
deep and no deeper (`isGreatest_nesting`).
-/

namespace ScimQuery

open Grammar

/-! ### Paths of a document -/

namespace Json

/-- Whether a value has nothing inside. -/
def IsLeaf : Json → Prop
  | .array items => items = []
  | .object fields => fields = []
  | _ => True

/-- The levels that a field adds to its value: one for a list of queries under "$and" or "$or". -/
def joinLevel (key : String) : Json → Nat
  | .array _ => if key = "$and" ∨ key = "$or" then 1 else 0
  | _ => 0

/-- `value.Path n` says that some path from the root of a value to one of its leaves passes through
`n` lists of queries. -/
inductive Path : Json → Nat → Prop
  | leaf {value : Json} (h : value.IsLeaf) : Path value 0
  | item {items : List Json} {item : Json} {n : Nat} (hmem : item ∈ items) (h : Path item n) :
      Path (.array items) n
  | field {fields : List (String × Json)} {key : String} {value : Json} {n : Nat}
      (hmem : (key, value) ∈ fields) (h : Path value n) :
      Path (.object fields) (n + joinLevel key value)

theorem joinLevel_eq_zero {key : String} {value : Json} (h : ∀ queries, value ≠ .array queries) :
    joinLevel key value = 0 := by
  cases value with
  | array items => exact absurd rfl (h items)
  | _ => rfl

@[simp] theorem joinLevel_queryKey (c : Connective) (queries : List Json) :
    joinLevel c.queryKey (.array queries) = 1 :=
  if_pos c.queryKey_eq_or

/-- A value with nothing inside has one path, and no lists on it. -/
theorem IsLeaf.path_iff {value : Json} (h : value.IsLeaf) {n : Nat} : value.Path n ↔ n = 0 := by
  constructor
  · intro hpath
    cases hpath with
    | leaf _ => rfl
    | item hmem _ =>
      rw [IsLeaf] at h
      simp [h] at hmem
    | field hmem _ =>
      rw [IsLeaf] at h
      simp [h] at hmem
  · rintro rfl
    exact .leaf h

theorem path_array_iff {items : List Json} (hne : items ≠ []) {n : Nat} :
    (array items).Path n ↔ ∃ item ∈ items, item.Path n := by
  constructor
  · intro hpath
    cases hpath with
    | leaf h => exact absurd h hne
    | item hmem h => exact ⟨_, hmem, h⟩
  · rintro ⟨item, hmem, h⟩
    exact .item hmem h

theorem path_single_iff {key : String} {value : Json} {n : Nat} :
    (single key value).Path n ↔ ∃ m, value.Path m ∧ n = m + joinLevel key value := by
  constructor
  · intro hpath
    generalize hdocument : single key value = document at hpath
    cases hpath with
    | leaf h =>
      subst hdocument
      simp [single, IsLeaf] at h
    | item hmem h => simp [single] at hdocument
    | field hmem h =>
      rw [single, object.injEq] at hdocument
      subst hdocument
      rw [List.mem_singleton, Prod.mk.injEq] at hmem
      obtain ⟨rfl, rfl⟩ := hmem
      exact ⟨_, h, rfl⟩
  · rintro ⟨m, h, rfl⟩
    exact .field (List.mem_singleton.mpr rfl) h

/-- A field that is no list of queries adds nothing to the paths of its value. -/
theorem path_single_iff_of_ne {key : String} {value : Json} {n : Nat}
    (h : ∀ queries, value ≠ .array queries) : (single key value).Path n ↔ value.Path n := by
  rw [path_single_iff, joinLevel_eq_zero h]
  simp

/-- A document of values with nothing inside has no lists on its paths. -/
theorem path_object_iff {fields : List (String × Json)}
    (h : ∀ field ∈ fields, field.2.IsLeaf ∧ ∀ queries, field.2 ≠ .array queries) {n : Nat} :
    (object fields).Path n ↔ n = 0 := by
  constructor
  · intro hpath
    cases hpath with
    | leaf _ => rfl
    | field hmem hpath =>
      obtain ⟨hleaf, hne⟩ := h _ hmem
      rw [hleaf.path_iff.mp hpath, joinLevel_eq_zero hne]
  · rintro rfl
    cases fields with
    | nil => exact .leaf rfl
    | cons field fields =>
      obtain ⟨key, value⟩ := field
      obtain ⟨hleaf, hne⟩ := h (key, value) (by simp)
      have hpath : (object ((key, value) :: fields)).Path (0 + joinLevel key value) :=
        .field (by simp) (.leaf hleaf)
      rwa [joinLevel_eq_zero hne] at hpath

/-- The lists on a path through a connective are those on a path of one of its queries, and one
more. -/
theorem path_join_iff {c : Connective} {queries : List Json} (hne : queries ≠ []) {n : Nat} :
    (single c.queryKey (.array queries)).Path n ↔
      ∃ query ∈ queries, ∃ m, query.Path m ∧ n = m + 1 := by
  rw [path_single_iff, joinLevel_queryKey]
  constructor
  · rintro ⟨m, hpath, rfl⟩
    obtain ⟨query, hmem, hpath⟩ := (path_array_iff hne).mp hpath
    exact ⟨query, hmem, m, hpath, rfl⟩
  · rintro ⟨query, hmem, m, hpath, rfl⟩
    exact ⟨m, (path_array_iff hne).mpr ⟨query, hmem, hpath⟩, rfl⟩

end Json

/-! ### Conditions -/

theorem Condition.isLeaf_value (c : Condition) : c.value.IsLeaf := by
  have hne := c.value_ne
  cases h : c.value with
  | array items => exact absurd h (hne.1 items)
  | object fields => exact absurd h (hne.2 fields)
  | _ => trivial

/-- The query for a condition holds no lists of queries. -/
theorem Condition.path_query_iff (c : Condition) {n : Nat} : c.query.Path n ↔ n = 0 := by
  have hkeyed : ∀ {key : String}, (Json.single key c.value).Path n ↔ n = 0 := by
    intro key
    apply Json.path_object_iff
    rw [List.forall_mem_singleton]
    exact ⟨c.isLeaf_value, c.value_ne.1⟩
  have hsearch : ∀ {pattern : String}, (search pattern).Path n ↔ n = 0 := by
    intro pattern
    apply Json.path_object_iff
    simp [Json.IsLeaf]
  rw [query, Json.path_single_iff_of_ne c.test_ne.1, test]
  cases c.comparator with
  | arrayContains => exact c.isLeaf_value.path_iff
  | contains => exact hsearch
  | endsWith => exact hsearch
  | startsWith => exact hsearch
  | present => exact Json.path_object_iff (by simp [Json.IsLeaf])
  | _ => exact hkeyed

/-! ### Runs -/

namespace Filter

/-- The number of runs around the innermost conditions of a filter. -/
def levels : Filter → Nat
  | .condition _ => 0
  | .logical c l r =>
    max (l.levels + if l.connective? = some c then 0 else 1)
      (r.levels + if r.connective? = some c then 0 else 1)
  | .array _ f => f.levels

/-- The levels of a filter as a part of a run, which is one of them already. -/
def levelsIn (c : Connective) (f : Filter) : Nat :=
  f.levels + if f.connective? = some c then 0 else 1

theorem levels_logical (c : Connective) (l r : Filter) :
    (logical c l r).levels = max (l.levelsIn c) (r.levelsIn c) := rfl

theorem levelsIn_of_eq {c : Connective} {f : Filter} (h : f.connective? = some c) :
    f.levelsIn c = f.levels := by
  rw [levelsIn, if_pos h, Nat.add_zero]

theorem levelsIn_of_ne {c : Connective} {f : Filter} (h : f.connective? ≠ some c) :
    f.levelsIn c = f.levels + 1 := by
  rw [levelsIn, if_neg h]

theorem levelsIn_le (c : Connective) (f : Filter) : f.levelsIn c ≤ f.levels + 1 := by
  unfold levelsIn
  split <;> omega

/-- A run is one level above the deepest of its operands. -/
theorem levelsIn_eq (c : Connective) (f : Filter) :
    (∀ g ∈ f.operands c, g.levels + 1 ≤ f.levelsIn c) ∧
      ∃ g ∈ f.operands c, f.levelsIn c = g.levels + 1 := by
  induction f with
  | condition test => simp [operands, levelsIn, connective?]
  | array path f _ => simp [operands, levelsIn, connective?]
  | logical d l r ihl ihr =>
    by_cases h : c = d
    · subst h
      rw [levelsIn_of_eq rfl, levels_logical, operands, if_pos rfl]
      constructor
      · intro g hg
        rcases List.mem_append.mp hg with hg | hg
        · exact Nat.le_trans (ihl.1 g hg) (Nat.le_max_left _ _)
        · exact Nat.le_trans (ihr.1 g hg) (Nat.le_max_right _ _)
      · rcases Nat.le_total (r.levelsIn c) (l.levelsIn c) with hle | hle
        · obtain ⟨g, hg, heq⟩ := ihl.2
          exact ⟨g, List.mem_append_left _ hg, by rw [Nat.max_eq_left hle, heq]⟩
        · obtain ⟨g, hg, heq⟩ := ihr.2
          exact ⟨g, List.mem_append_right _ hg, by rw [Nat.max_eq_right hle, heq]⟩
    · have hne : (logical d l r).connective? ≠ some c := fun heq => h (Option.some.inj heq).symm
      rw [levelsIn_of_ne hne, operands, if_neg h]
      simp

theorem levels_operands (c : Connective) (l r : Filter) :
    (∀ g ∈ l.operands c ++ r.operands c, g.levels + 1 ≤ (logical c l r).levels) ∧
      ∃ g ∈ l.operands c ++ r.operands c, (logical c l r).levels = g.levels + 1 := by
  have hlevels := levelsIn_eq c (logical c l r)
  rwa [levelsIn_of_eq rfl, operands, if_pos rfl] at hlevels

/-! ### The query for a filter -/

theorem query_ne_array (f : Filter) (queries : List Json) : f.query ≠ .array queries := by
  cases f with
  | condition c => simp [Condition.query, Json.single]
  | array path f => simp [Json.single]
  | logical c l r => simp [query_logical, Json.single]

/-- Only the key of a connective adds a level. -/
theorem path_query_array_iff {path : String} {f : Filter} {n : Nat} :
    (query (.array path f)).Path n ↔ f.query.Path n := by
  rw [query_array, Json.path_single_iff_of_ne (by simp [Json.single]),
    Json.path_single_iff_of_ne f.query_ne_array]

theorem path_query_logical_iff {c : Connective} {l r : Filter} {n : Nat} :
    (query (.logical c l r)).Path n ↔
      ∃ f ∈ l.operands c ++ r.operands c, ∃ m, f.query.Path m ∧ n = m + 1 := by
  rw [query_logical, Json.path_join_iff (by simp [operands_ne_nil])]
  simp only [List.mem_map, exists_exists_and_eq_and]

/-- No path of the query for a filter passes through more lists than the filter has levels. -/
theorem path_query_le {f : Filter} {n : Nat} (h : f.query.Path n) : n ≤ f.levels := by
  induction f using run_induction generalizing n with
  | condition c =>
    rw [query_condition, c.path_query_iff] at h
    omega
  | array path f ih => exact ih (path_query_array_iff.mp h)
  | logical c l r ih =>
    obtain ⟨g, hg, m, hpath, rfl⟩ := path_query_logical_iff.mp h
    have hm : m ≤ g.levels := ih g hg hpath
    have hlevels := (levels_operands c l r).1 g hg
    omega

/-- Some path of the query for a filter passes through as many lists as the filter has levels. -/
theorem path_query_levels (f : Filter) : f.query.Path f.levels := by
  induction f using run_induction with
  | condition c =>
    rw [query_condition, c.path_query_iff]
    rfl
  | array path f ih => exact path_query_array_iff.mpr ih
  | logical c l r ih =>
    obtain ⟨g, hg, hlevels⟩ := (levels_operands c l r).2
    exact path_query_logical_iff.mpr ⟨g, hg, g.levels, ih g hg, hlevels⟩

/-- A query is nested at most one level deeper than what the canonical text of its filter needs. -/
theorem levels_le_need (f : Filter) :
    f.levels ≤ f.need + if f.connective?.isSome then 1 else 0 := by
  induction f with
  | condition c => exact Nat.zero_le _
  | array path f ih =>
    rw [levels, need]
    split at ih <;> omega
  | logical c l r ihl ihr =>
    have hl : l.levelsIn c ≤ l.need + (if l.connective?.any (· != c) then 1 else 0) + 1 := by
      cases hconnective : l.connective? with
      | none => simpa [levelsIn, hconnective] using ihl
      | some d => by_cases hd : d = c <;> simp_all [levelsIn]
    have hr : r.levelsIn c ≤ r.need + (if r.connective?.isSome then 1 else 0) + 1 :=
      Nat.le_trans (levelsIn_le c r) (Nat.succ_le_succ ihr)
    rw [levels_logical, need, connective?, Option.isSome_some, if_pos rfl]
    omega

end Filter

/-! ### What the limit bounds -/

theorem choose_two_succ (n : Nat) : (n + 1).choose 2 = n + n.choose 2 := by
  rw [Nat.choose_succ_succ' n 1, Nat.choose_one_right]

/-- The levels of what a chain with these connectives and this need stands for. The terms of the
chain are within the binomial coefficient, and the chain wraps them in a level for itself and one
for each of its switches. -/
def Grammar.chainLevels (cs : List Connective) (need : Nat) : Nat :=
  (need + 1).choose 2 + if cs = [] then 0 else switches cs + 1

/-- A chain has room for its switches, and so a group of it is within the next coefficient. -/
theorem Grammar.chainLevels_le {cs : List Connective} {need : Nat} (h : switches cs ≤ need) :
    chainLevels cs need ≤ (need + 2).choose 2 := by
  have hchoose : (need + 2).choose 2 = need + 1 + (need + 1).choose 2 := choose_two_succ (need + 1)
  unfold chainLevels
  split <;> omega

/-- A chain that goes on has one more level only where the connective is another one, and then it
has one more switch. -/
theorem Grammar.levelsIn_le_of_chain {cs : List Connective} {f : Filter} {need : Nat}
    (hlevels : f.levels ≤ chainLevels cs need)
    (hlast : ∀ d ∈ cs.getLast?, f.connective? = some d) (c : Connective) :
    f.levelsIn c ≤ (need + 1).choose 2 + switches (cs ++ [c]) + 1 := by
  have hconcat := switches_concat cs c
  unfold chainLevels at hlevels
  cases hd : cs.getLast? with
  | none =>
    rw [if_pos (List.getLast?_eq_none_iff.mp hd)] at hlevels
    have hle := f.levelsIn_le c
    omega
  | some d =>
    have hne : cs ≠ [] := by
      rintro rfl
      exact absurd hd (by simp)
    have hroot : f.connective? = some d := hlast d hd
    rw [if_neg hne] at hlevels
    rw [hd, Option.any_some] at hconcat
    by_cases hdc : d = c
    · rw [Filter.levelsIn_of_eq (hdc ▸ hroot)]
      omega
    · have hother : f.connective? ≠ some c := by simpa [hroot] using hdc
      rw [if_pos (bne_iff_ne.mpr hdc)] at hconcat
      rw [Filter.levelsIn_of_ne hother]
      omega

theorem levels_le_of_derivation :
    (∀ {tokens : List Token} {f : Filter} {need : Nat}, IsTerm tokens f need →
      f.levels ≤ (need + 1).choose 2) ∧
    ∀ {tokens : List Token} {cs : List Connective} {f : Filter} {need : Nat},
      IsChain tokens cs f need → switches cs ≤ need ∧ f.levels ≤ chainLevels cs need ∧
        ∀ c ∈ cs.getLast?, f.connective? = some c := by
  refine derivation_induction ?condition ?group ?array ?term ?link
  case condition =>
    intro tokens test _
    exact Nat.zero_le _
  case group =>
    rintro tokens cs f need ⟨hswitches, hlevels, -⟩
    exact Nat.le_trans hlevels (chainLevels_le hswitches)
  case array =>
    rintro path tokens cs f need ⟨hswitches, hlevels, -⟩
    exact Nat.le_trans hlevels (chainLevels_le hswitches)
  case term =>
    intro tokens f need hlevels
    exact ⟨Nat.zero_le _, by simpa [chainLevels] using hlevels, by simp⟩
  case link =>
    rintro left right cs f g m n word c ⟨-, hf, hlast⟩ _ hg
    have hleft := levelsIn_le_of_chain hf hlast c
    have hright : g.levelsIn c ≤ (n + 1).choose 2 + 1 :=
      Nat.le_trans (g.levelsIn_le c) (Nat.succ_le_succ hg)
    -- both needs are within that of the longer chain
    have hm : (m + 1).choose 2 ≤ (max m (switches (cs ++ [c]) + n) + 1).choose 2 :=
      Nat.choose_le_choose 2 (by omega)
    have hn : (n + 1).choose 2 ≤ (max m (switches (cs ++ [c]) + n) + 1).choose 2 :=
      Nat.choose_le_choose 2 (by omega)
    refine ⟨by omega, ?_, by simp [Filter.connective?]⟩
    rw [Filter.levels_logical, chainLevels, if_neg (by simp)]
    omega

/-- A filter that is read within a limit has no more levels than the sum of the numbers up to the
limit and one. -/
theorem levels_le_choose {tokens : List Token} {f : Filter} {need limit : Nat}
    (h : IsExpression tokens f need) (hneed : need ≤ limit) : f.levels ≤ (limit + 2).choose 2 := by
  obtain ⟨cs, hchain⟩ := h
  obtain ⟨hswitches, hlevels, -⟩ := levels_le_of_derivation.2 hchain
  calc f.levels ≤ chainLevels cs need := hlevels
    _ ≤ (need + 2).choose 2 := chainLevels_le hswitches
    _ ≤ (limit + 2).choose 2 := Nat.choose_le_choose 2 (by omega)

/-! ### Filters that are as deep as the limit admits -/

/-- The other connective. -/
def Connective.other : Connective → Connective
  | .and => .or
  | .or => .and

theorem Connective.other_ne (c : Connective) : c.other ≠ c := by cases c <;> decide

/-- The condition at the end of each chain. -/
def endCondition : Condition := ⟨"a", .present, none⟩

theorem wellFormed_of_mem_endCondition {token : Token} (h : token ∈ endCondition.tokens) :
    token.WellFormed := by
  rcases List.mem_cons.mp h with rfl | h
  · exact Token.isWord_of_all (by decide) (by decide)
  · obtain rfl := List.mem_singleton.mp h
    exact Comparator.isWord_keyword .present

theorem isTerm_endCondition : IsTerm endCondition.tokens (.condition endCondition) 0 :=
  .condition (.present (Comparator.lower_keyword .present))

/-- `tokens` are a chain of so many switches, need and levels that ends in the connective `c`, and
hold no literals. -/
structure IsTower (tokens : List Token) (f : Filter) (c : Connective)
    (switchCount need levels : Nat) : Prop where
  chain : ∃ cs, IsChain tokens cs f need ∧ cs.getLast? = some c ∧ switches cs = switchCount
  connective?_eq : f.connective? = some c
  levels_eq : f.levels = levels
  wellFormed : ∀ token ∈ tokens, token.WellFormed
  literals_eq : Token.literals tokens = []

/-- One more condition adds a level to a filter that is no run of its connective. It needs no more
where there is room for the switches before it. -/
theorem isTower_link {tokens : List Token} {cs : List Connective} {f : Filter} {n : Nat}
    {c : Connective} (hchain : IsChain tokens cs f n) (hroot : f.connective? ≠ some c)
    (hroom : switches (cs ++ [c]) ≤ n) (hwell : ∀ token ∈ tokens, token.WellFormed)
    (hliterals : Token.literals tokens = []) :
    IsTower (tokens ++ .word c.keyword :: endCondition.tokens)
      (.logical c f (.condition endCondition)) c (switches (cs ++ [c])) n (f.levels + 1) where
  chain := by
    have hlink := IsChain.link hchain c.lower_keyword isTerm_endCondition
    rw [Nat.add_zero, Nat.max_eq_left hroom] at hlink
    exact ⟨cs ++ [c], hlink, by simp, rfl⟩
  connective?_eq := rfl
  levels_eq := by
    rw [Filter.levels_logical, Filter.levelsIn_of_ne hroot]
    simp [Filter.levelsIn, Filter.levels, Filter.connective?]
  wellFormed := by
    intro token hmem
    rcases List.mem_append.mp hmem with hmem | hmem
    · exact hwell token hmem
    · rcases List.mem_cons.mp hmem with rfl | hmem
      · exact c.isWord_keyword
      · exact wellFormed_of_mem_endCondition hmem
  literals_eq := by
    rw [Token.literals_append, hliterals]
    rfl

namespace IsTower

variable {tokens : List Token} {f : Filter} {c : Connective} {s n k : Nat}

theorem connective?_ne (h : IsTower tokens f c s n k) : f.connective? ≠ some c.other := by
  rw [h.connective?_eq, ne_eq, Option.some.injEq]
  exact c.other_ne.symm

/-- One more switch adds a level. -/
theorem switch (h : IsTower tokens f c s n k) (hroom : s + 1 ≤ n) :
    ∃ tokens f c, IsTower tokens f c (s + 1) n (k + 1) := by
  obtain ⟨cs, hchain, hlast, hswitches⟩ := h.chain
  have hconcat : switches (cs ++ [c.other]) = s + 1 := by
    rw [switches_concat, hlast, hswitches]
    simp [c.other_ne.symm]
  have htower := isTower_link hchain h.connective?_ne (hconcat ▸ hroom) h.wellFormed h.literals_eq
  rw [hconcat, h.levels_eq] at htower
  exact ⟨_, _, _, htower⟩

/-- There is room for as many switches as are missing to the need. -/
theorem exists_switches (h : IsTower tokens f c s n k) (count : Nat) (hroom : s + count ≤ n) :
    ∃ tokens f c, IsTower tokens f c (s + count) n (k + count) := by
  induction count with
  | zero => exact ⟨tokens, f, c, h⟩
  | succ count ih =>
    obtain ⟨tokens, f, c, htower⟩ := ih (by omega)
    exact htower.switch hroom

/-- A group at the front of a chain needs one more level, and leaves all of it to the switches. -/
theorem group (h : IsTower tokens f c s n k) :
    ∃ tokens f c, IsTower tokens f c 0 (n + 1) (k + 1) := by
  obtain ⟨cs, hchain, -, -⟩ := h.chain
  have hwell : ∀ token ∈ .opening .round :: (tokens ++ [.closing .round]), token.WellFormed := by
    intro token hmem
    rcases List.mem_cons.mp hmem with rfl | hmem
    · trivial
    · rcases List.mem_append.mp hmem with hmem | hmem
      · exact h.wellFormed token hmem
      · obtain rfl := List.mem_singleton.mp hmem
        trivial
  have hliterals : Token.literals (.opening .round :: (tokens ++ [.closing .round])) = [] := by
    rw [literals_enclosed, h.literals_eq]
  have htower := isTower_link (.term (.group hchain)) h.connective?_ne (Nat.zero_le _) hwell
    hliterals
  rw [h.levels_eq] at htower
  exact ⟨_, _, _, htower⟩

end IsTower

/-- For every need there is a filter with as many levels as it admits. -/
theorem exists_isTower (n : Nat) : ∃ tokens f c, IsTower tokens f c n n ((n + 2).choose 2) := by
  induction n with
  | zero =>
    have hcondition : IsChain endCondition.tokens [] (.condition endCondition) 0 :=
      .term isTerm_endCondition
    exact ⟨_, _, .and, isTower_link hcondition (by simp [Filter.connective?]) (Nat.zero_le _)
      (fun _ => wellFormed_of_mem_endCondition) rfl⟩
  | succ n ih =>
    obtain ⟨tokens, f, c, htower⟩ := ih
    obtain ⟨tokens, f, c, hgroup⟩ := htower.group
    obtain ⟨tokens, f, c, hswitches⟩ := hgroup.exists_switches (n + 1) (by omega)
    have hchoose : (n + 1 + 2).choose 2 = n + 2 + (n + 2).choose 2 := choose_two_succ (n + 2)
    have hlevels : (n + 2).choose 2 + 1 + (n + 1) = (n + 1 + 2).choose 2 := by omega
    rw [Nat.zero_add, hlevels] at hswitches
    exact ⟨tokens, f, c, hswitches⟩

/-! ### Texts -/

/-- The lists of queries on a path are at most as many as the numbers up to the limit and one add up
to. -/
theorem path_le_choose {text : String} {limit n : Nat} {query : Json}
    (hok : queryOfText (some text) limit = .ok query) (hpath : query.Path n) :
    n ≤ (limit + 2).choose 2 := by
  rcases queryOfText_eq_ok_iff.mp hok with ⟨-, rfl⟩ | ⟨_, f, -, hparse, rfl⟩
  · have hempty : n = 0 := (Json.path_object_iff (by simp)).mp hpath
    omega
  · obtain ⟨-, need, hexpression, hneed⟩ := Filter.parse_eq_ok_some_iff.mp hparse
    rw [Filter.compile_eq_query] at hpath
    exact Nat.le_trans (Filter.path_query_le hpath) (levels_le_choose hexpression hneed)

/-- For each limit there is a text with as many of them. -/
theorem exists_path_choose (limit : Nat) :
    ∃ text query, queryOfText (some text) limit = .ok query ∧
      query.Path ((limit + 2).choose 2) := by
  obtain ⟨tokens, f, c, htower⟩ := exists_isTower limit
  obtain ⟨cs, hchain, -, -⟩ := htower.chain
  have hexpression : IsExpression tokens f limit := ⟨cs, hchain⟩
  obtain ⟨text, htokens, hblank⟩ := Token.exists_tokenize_eq htower.wellFormed htower.literals_eq
    hexpression.ne_nil
  have hparse : Filter.parse text limit = .ok (some f) := by
    rw [Filter.parse_eq_ok_some_iff, htokens]
    exact ⟨hblank, limit, hexpression, Nat.le_refl limit⟩
  have hpath : f.compile.Path ((limit + 2).choose 2) := by
    rw [Filter.compile_eq_query, ← htower.levels_eq]
    exact f.path_query_levels
  exact ⟨text, _, queryOfText_eq_ok_iff.mpr (.inr ⟨text, f, rfl, hparse, rfl⟩), hpath⟩

theorem Filter.forall_path_compile_le_iff {f : Filter} {bound : Nat} :
    (∀ n, f.compile.Path n → n ≤ bound) ↔ f.levels ≤ bound := by
  rw [compile_eq_query]
  constructor
  · intro h
    exact h _ f.path_query_levels
  · intro h n hpath
    exact Nat.le_trans (path_query_le hpath) h

/-- The lists of queries on a path of the query for a text are at most as many as the numbers up to
the limit and one add up to, and for each limit there is a text with as many of them. They stay
within the limit and one exactly where the levels of the filter do, and so wherever its canonical
text can be read within the limit too. -/
theorem isGreatest_nesting (limit : Nat) :
    IsGreatest {n | ∃ text query, queryOfText (some text) limit = .ok query ∧ query.Path n}
        ((limit + 2).choose 2) ∧
      ∀ text f, Filter.parse text limit = .ok (some f) →
        ∃ query, queryOfText (some text) limit = .ok query ∧
          ((∀ n, query.Path n → n ≤ limit + 1) ↔ f.levels ≤ limit + 1) ∧
          (f.need ≤ limit → f.levels ≤ limit + 1) := by
  refine ⟨⟨exists_path_choose limit, ?_⟩, ?_⟩
  · rintro n ⟨text, query, hok, hpath⟩
    exact path_le_choose hok hpath
  · intro text f hparse
    have hok := queryOfText_eq_ok_iff.mpr (.inr ⟨text, f, rfl, hparse, rfl⟩)
    refine ⟨f.compile, hok, Filter.forall_path_compile_le_iff, fun hneed => ?_⟩
    have hlevels := f.levels_le_need
    split at hlevels <;> omega

/-- A group behind which the chain keeps its connective stays within the limit and one. -/
theorem path_le_of_group :
    ∃ query, queryOfText (some "(x pr or y pr) and z pr and w pr") 1 = .ok query ∧
      ∀ n, query.Path n → n ≤ 1 + 1 := by
  have htokens : Token.tokenize "(x pr or y pr) and z pr and w pr" =
      [.opening .round, .word "x", .word "pr", .word "or", .word "y", .word "pr", .closing .round,
        .word "and", .word "z", .word "pr", .word "and", .word "w", .word "pr"] := by
    decide +kernel
  have hparse : Filter.parse "(x pr or y pr) and z pr and w pr" 1 =
      .ok (some (.logical .and (.logical .and (.logical .or (.condition ⟨"x", .present, none⟩)
        (.condition ⟨"y", .present, none⟩)) (.condition ⟨"z", .present, none⟩))
        (.condition ⟨"w", .present, none⟩))) :=
    Filter.parse_of_tokens (by decide) htokens rfl
  obtain ⟨query, hok, hbound, hneed⟩ := (isGreatest_nesting 1).2 _ _ hparse
  exact ⟨query, hok, hbound.mpr (hneed (by decide))⟩

/-- The group has been left when the chain changes its connective, and so the change costs nothing
more than the group did. -/
theorem exists_path_of_switch_behind_group :
    ∃ query, queryOfText (some "(x pr or y pr) and z pr or w pr") 1 = .ok query ∧
      ¬ ∀ n, query.Path n → n ≤ 1 + 1 := by
  have htokens : Token.tokenize "(x pr or y pr) and z pr or w pr" =
      [.opening .round, .word "x", .word "pr", .word "or", .word "y", .word "pr", .closing .round,
        .word "and", .word "z", .word "pr", .word "or", .word "w", .word "pr"] := by
    decide +kernel
  have hparse : Filter.parse "(x pr or y pr) and z pr or w pr" 1 =
      .ok (some (.logical .or (.logical .and (.logical .or (.condition ⟨"x", .present, none⟩)
        (.condition ⟨"y", .present, none⟩)) (.condition ⟨"z", .present, none⟩))
        (.condition ⟨"w", .present, none⟩))) :=
    Filter.parse_of_tokens (by decide) htokens rfl
  have hok := queryOfText_eq_ok_iff.mpr (.inr ⟨_, _, rfl, hparse, rfl⟩)
  exact ⟨_, hok, fun h => absurd (Filter.forall_path_compile_le_iff.mp h) (by decide)⟩

end ScimQuery
