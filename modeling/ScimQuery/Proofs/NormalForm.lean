import ScimQuery.Proofs.Documents
import ScimQuery.Proofs.Patterns

/-!
# Normal forms

A query does not show how the operands of a run were grouped, and a pattern does not show whether it
was made from a number, a truth value or a text. `Filter.normalForm` leaves out just that: it
gathers the operands of each run, and puts the text of its operand into each condition that asks for
a pattern.

`compile_eq_iff_normalForm_eq` says that two filters become the same query if and only if they have
the same normal form. What it takes is that the documents of the ten comparators can be told apart
(`comparator_test`), since an anchor is an operator where the pattern for a text has none.
-/

namespace ScimQuery

/-! ### Conditions -/

/-- Whether a comparator asks for a pattern. -/
def Comparator.searches : Comparator → Bool
  | .contains | .endsWith | .startsWith => true
  | _ => false

/-- A condition with the text of its operand for the operand, if it asks for a pattern. -/
def Condition.normalForm (c : Condition) : Condition :=
  if c.comparator.searches then { c with operand := c.operand.map fun x => .text x.display } else c

/-- The comparator that a search is made for. The pattern for a text has no operators, so that an
operator at one of its ends is an anchor. -/
def Pattern.comparator (pattern : String) : Comparator :=
  let items := read pattern.toList
  if items.head? = some (.operator '^') then .startsWith
  else if items.getLast? = some (.operator '$') then .endsWith
  else .contains

/-- The comparator that a document is the test of. -/
def Json.comparator : Json → Comparator
  | .object [("$eq", _)] => .equal
  | .object [("$gte", _)] => .greaterEqual
  | .object [("$gt", _)] => .greaterThan
  | .object [("$lte", _)] => .lessEqual
  | .object [("$lt", _)] => .lessThan
  | .object [("$exists", _)] => .present
  | .object [_, (_, .string pattern)] => Pattern.comparator pattern
  | _ => .arrayContains

namespace Pattern

theorem not_mem_map_literal (s : List Char) (c : Char) : Item.operator c ∉ s.map Item.literal := by
  simp

theorem comparator_contains (text : String) : comparator (escape text) = .contains := by
  have hhead : (text.toList.map Item.literal).head? ≠ some (.operator '^') := fun h =>
    not_mem_map_literal _ _ (List.mem_of_mem_head? h)
  have hlast : (text.toList.map Item.literal).getLast? ≠ some (.operator '$') := fun h =>
    not_mem_map_literal _ _ (List.mem_of_mem_getLast? h)
  unfold comparator
  rw [read_escape]
  simp only [if_neg hhead, if_neg hlast]

theorem comparator_startsWith (text : String) : comparator ("^" ++ escape text) = .startsWith := by
  unfold comparator
  rw [read_startAnchor]
  rfl

theorem comparator_endsWith (text : String) : comparator (escape text ++ "$") = .endsWith := by
  have hhead : (text.toList.map Item.literal ++ [Item.operator '$']).head? ≠
      some (.operator '^') := by
    intro h
    have hmem := List.mem_of_mem_head? h
    simp at hmem
  unfold comparator
  rw [read_endAnchor]
  simp only [if_neg hhead, List.getLast?_concat, if_true]

end Pattern

/-! ### Operands -/

/-- The operand that a value of a query stands for. -/
def Operand.ofJson? : Json → Option Operand
  | .string s => some (.text s)
  | .integer n => (int64? n).map .integer
  | .real x => some (.real x)
  | .boolean b => some (.boolean b)
  | _ => none

theorem Operand.ofJson?_toJson {x : Operand} (h : x.WellFormed) : ofJson? x.toJson = some x := by
  cases x with
  | text s => rfl
  | integer n => simp [toJson, ofJson?, int64?_toInt]
  | real y =>
    obtain ⟨m, rfl⟩ := h
    rfl
  | boolean b => rfl

theorem Operand.toJson_inj {x y : Operand} (hx : x.WellFormed) (hy : y.WellFormed) :
    x.toJson = y.toJson ↔ x = y := by
  constructor
  · intro h
    have hread : some x = some y := by rw [← ofJson?_toJson hx, h, ofJson?_toJson hy]
    exact Option.some.inj hread
  · exact congrArg toJson

namespace Condition

/-! ### The query for a condition -/

/-- A condition asks for the same as its normal form. -/
theorem query_normalForm (c : Condition) : c.normalForm.query = c.query := by
  obtain ⟨path, comparator, operand⟩ := c
  have hpattern : pattern ⟨path, comparator, operand.map fun x => .text x.display⟩ =
      pattern ⟨path, comparator, operand⟩ := by
    cases operand <;> rfl
  cases comparator with
  | contains => simp only [normalForm, Comparator.searches, if_true, query, test, hpattern]
  | endsWith => simp only [normalForm, Comparator.searches, if_true, query, test, hpattern]
  | startsWith => simp only [normalForm, Comparator.searches, if_true, query, test, hpattern]
  | _ => rfl

/-- The document of a condition says which comparator it is for. -/
theorem comparator_test {c : Condition} (h : c.WellFormed) : c.test.comparator = c.comparator := by
  obtain ⟨path, comparator, operand⟩ := c
  cases operand with
  | none =>
    obtain rfl : comparator = .present := h.operand_eq_none_iff.mp rfl
    rfl
  | some x =>
    cases comparator with
    | arrayContains =>
      have hscalar : x.toJson.IsScalar := Operand.isScalar_toJson (h.operand x rfl)
      show x.toJson.comparator = .arrayContains
      generalize x.toJson = value at hscalar
      cases hscalar <;> rfl
    | contains => exact Pattern.comparator_contains x.display
    | endsWith => exact Pattern.comparator_endsWith x.display
    | startsWith => exact Pattern.comparator_startsWith x.display
    | _ => rfl

/-- What a condition asks for shows its pattern or its value, whichever its comparator needs. -/
theorem pattern_or_value_eq {path path' : String} {comparator : Comparator}
    {operand operand' : Option Operand}
    (h : test ⟨path, comparator, operand⟩ = test ⟨path', comparator, operand'⟩) :
    if comparator.searches then
      pattern ⟨path, comparator, operand⟩ = pattern ⟨path', comparator, operand'⟩
    else comparator ≠ .present →
      value ⟨path, comparator, operand⟩ = value ⟨path', comparator, operand'⟩ := by
  cases comparator <;> simp_all [Comparator.searches, test, search, Json.single]

/-- Two conditions become the same query if and only if they have the same normal form. -/
theorem query_eq_iff {c d : Condition} (hc : c.WellFormed) (hd : d.WellFormed) :
    c.query = d.query ↔ c.normalForm = d.normalForm := by
  constructor
  · intro h
    obtain ⟨hpath, htest⟩ : c.path = d.path ∧ c.test = d.test := Json.single_inj.mp h
    have hcomparator : c.comparator = d.comparator := by
      rw [← comparator_test hc, ← comparator_test hd, htest]
    obtain ⟨path, comparator, operand⟩ := c
    obtain ⟨path', comparator', operand'⟩ := d
    obtain rfl : path = path' := hpath
    obtain rfl : comparator = comparator' := hcomparator
    have heq := pattern_or_value_eq htest
    -- either both have an operand or neither has
    cases operand with
    | none =>
      obtain rfl : comparator = .present := hc.operand_eq_none_iff.mp rfl
      obtain rfl : operand' = none := hd.operand_eq_none_iff.mpr rfl
      rfl
    | some x =>
      have hpresent : comparator ≠ .present := fun hp =>
        absurd (hc.operand_eq_none_iff.mpr hp) (by simp)
      obtain ⟨y, rfl⟩ : ∃ y, operand' = some y :=
        Option.ne_none_iff_exists'.mp fun hn => hpresent (hd.operand_eq_none_iff.mp hn)
      unfold normalForm
      cases hsearches : comparator.searches with
      | true =>
        simp only [hsearches, if_true] at heq
        have hdisplay : x.display = y.display := Pattern.escape_inj.mp heq
        simp [hdisplay]
      | false =>
        simp only [hsearches, Bool.false_eq_true, if_false] at heq
        have hvalue : x.toJson = y.toJson := heq hpresent
        rw [Operand.toJson_inj (hc.operand x rfl) (hd.operand y rfl)] at hvalue
        rw [hvalue]
  · intro h
    rw [← query_normalForm c, h, query_normalForm]

end Condition

/-! ### The normal form of a filter -/

/-- A filter up to the grouping of its runs. -/
inductive NormalForm
  | condition (test : Condition)
  /-- The operands of a run, from left to right. -/
  | join (c : Connective) (operands : List NormalForm)
  | array (path : String) (inner : NormalForm)

/-- What a normal form adds to a run of a connective: its operands if it is one itself. -/
def NormalForm.operands (c : Connective) : NormalForm → List NormalForm
  | .join d operands => if c = d then operands else [.join d operands]
  | f => [f]

namespace Filter

/-- The normal form of a filter. -/
def normalForm : Filter → NormalForm
  | .condition c => .condition c.normalForm
  | .logical c l r => .join c (l.normalForm.operands c ++ r.normalForm.operands c)
  | .array path f => .array path f.normalForm

theorem operands_normalForm (c : Connective) (f : Filter) :
    f.normalForm.operands c = (f.operands c).map normalForm := by
  induction f with
  | condition test => rfl
  | array path f _ => rfl
  | logical d l r ihl ihr =>
    rw [operands, normalForm, NormalForm.operands]
    by_cases h : c = d
    · subst h
      rw [if_pos rfl, if_pos rfl, List.map_append, ihl, ihr]
    · rw [if_neg h, if_neg h]
      rfl

/-- The operands of the normal form of a run are the normal forms of its operands. -/
theorem normalForm_logical (c : Connective) (l r : Filter) :
    (logical c l r).normalForm = .join c ((l.operands c ++ r.operands c).map normalForm) := by
  rw [normalForm, operands_normalForm, operands_normalForm, List.map_append]

/-! ### The query for a filter -/

/-- The query for a filter says which connective the filter is a run of, if any. -/
theorem connective?_eq_of_query_eq {f g : Filter} (hf : f.WellFormed) (hg : g.WellFormed)
    (h : f.query = g.query) : f.connective? = g.connective? := by
  have hkey : ∀ {f g : Filter} {c : Connective}, g.WellFormed → f.query = g.query →
      f.connective? = some c → g.connective? = some c := by
    intro f g c hg h hc
    have hmem : c.queryKey ∈ f.query.keys := by
      cases f with
      | logical d l r =>
        obtain rfl := Option.some.inj hc
        simp [query_logical]
      | _ => exact absurd hc (by simp [connective?])
    exact Classical.byContradiction fun hne => queryKey_notMem_keys hg hne (h ▸ hmem)
  exact Option.ext fun c => ⟨hkey hg h, hkey hf h.symm⟩

/-- What a condition asks for is no query on the members of an array. -/
theorem query_condition_ne_array (c : Condition) (path : String) (f : Filter) :
    query (.condition c) ≠ query (.array path f) := by
  rw [query_condition, query_array, Condition.query]
  exact fun h => c.test_ne.2 f.query (Json.single_inj.mp h).2

end Filter

/-- Two functions that tell the members of two lists apart in the same way tell the lists apart in
the same way. -/
theorem map_eq_map_iff_of_forall {α β γ : Type} {p : α → β} {q : α → γ} {xs ys : List α}
    (h : ∀ x ∈ xs, ∀ y ∈ ys, p x = p y ↔ q x = q y) :
    xs.map p = ys.map p ↔ xs.map q = ys.map q := by
  induction xs generalizing ys with
  | nil => simp
  | cons x xs ih =>
    cases ys with
    | nil => simp
    | cons y ys =>
      have hrest : xs.map p = ys.map p ↔ xs.map q = ys.map q :=
        ih fun x' hx' y' hy' => h x' (List.mem_cons_of_mem x hx') y' (List.mem_cons_of_mem y hy')
      rw [List.map_cons, List.map_cons, List.map_cons, List.map_cons, List.cons.injEq,
        List.cons.injEq, h x (by simp) y (by simp), hrest]

namespace Filter

/-- Two well-formed filters become the same query if and only if they have the same normal form. -/
theorem query_eq_iff {f g : Filter} (hf : f.WellFormed) (hg : g.WellFormed) :
    f.query = g.query ↔ f.normalForm = g.normalForm := by
  induction f using run_induction generalizing g with
  | condition c =>
    cases g with
    | condition d =>
      rw [query_condition, query_condition, Condition.query_eq_iff hf hg, normalForm, normalForm,
        NormalForm.condition.injEq]
    | array path g =>
      exact iff_of_false (query_condition_ne_array c path g) (by simp [normalForm])
    | logical d l r =>
      have hne := mt (connective?_eq_of_query_eq hf hg) (by simp [connective?])
      exact iff_of_false hne (by simp [normalForm])
  | array path f ih =>
    cases g with
    | condition d =>
      exact iff_of_false (query_condition_ne_array d path f).symm (by simp [normalForm])
    | array path' g =>
      rw [query_array, query_array, normalForm, normalForm, NormalForm.array.injEq, ← ih hf.2 hg.2,
        Json.single_inj, Json.single_inj, and_iff_right rfl]
    | logical d l r =>
      have hne := mt (connective?_eq_of_query_eq hf hg) (by simp [connective?])
      exact iff_of_false hne (by simp [normalForm])
  | logical c l r ih =>
    cases g with
    | logical d m s =>
      by_cases hcd : c = d
      · subst hcd
        -- the operands are compared one by one, whatever the grouping on either side
        have hoperands : (l.operands c ++ r.operands c).map query =
              (m.operands c ++ s.operands c).map query ↔
            (l.operands c ++ r.operands c).map normalForm =
              (m.operands c ++ s.operands c).map normalForm := by
          apply map_eq_map_iff_of_forall
          intro x hx y hy
          exact ih x hx (wellFormed_of_mem_run hx hf) (wellFormed_of_mem_run hy hg)
        rw [query_logical, query_logical, normalForm_logical, normalForm_logical,
          NormalForm.join.injEq, ← hoperands, Json.single_inj, Json.array.injEq]
        exact ⟨fun h => ⟨rfl, h.2⟩, fun h => ⟨rfl, h.2⟩⟩
      · have hne := mt (connective?_eq_of_query_eq hf hg) (by simpa [connective?] using hcd)
        exact iff_of_false hne (by simp [normalForm, hcd])
    | _ =>
      have hne := mt (connective?_eq_of_query_eq hf hg) (by simp [connective?])
      exact iff_of_false hne (by simp [normalForm])

/-- Two filters that come from texts become the same query if and only if they have the same normal
form: compiling forgets how the operands of a run were grouped, and of which kind the operand of a
search was, and nothing else. -/
theorem compile_eq_iff_normalForm_eq {text text' : String} {limit limit' : Nat} {f g : Filter}
    (hf : parse text limit = .ok (some f)) (hg : parse text' limit' = .ok (some g)) :
    f.compile = g.compile ↔ f.normalForm = g.normalForm := by
  rw [compile_eq_query, compile_eq_query]
  exact query_eq_iff (wellFormed_of_parse hf) (wellFormed_of_parse hg)

/-- The operands are grouped to the right in the one text and to the left in the other, and what is
searched for is a number here and a text there. -/
theorem compile_eq_of_regrouped :
    ∃ f g, parse "a pr and (b co 1 and c[d sw \"$\"])" 2 = .ok (some f) ∧
      parse "(a pr and b co \"1\") and c[d sw \"$\"]" 1 = .ok (some g) ∧
      f ≠ g ∧ f.compile = g.compile := by
  have htokens : Token.tokenize "a pr and (b co 1 and c[d sw \"$\"])" =
      [.word "a", .word "pr", .word "and", .opening .round, .word "b", .word "co", .word "1",
        .word "and", .word "c", .opening .square, .word "d", .word "sw", .quoted "$",
        .closing .square, .closing .round] := by
    decide +kernel
  have htokens' : Token.tokenize "(a pr and b co \"1\") and c[d sw \"$\"]" =
      [.opening .round, .word "a", .word "pr", .word "and", .word "b", .word "co", .quoted "1",
        .closing .round, .word "and", .word "c", .opening .square, .word "d", .word "sw",
        .quoted "$", .closing .square] := by
    decide +kernel
  have hf : parse "a pr and (b co 1 and c[d sw \"$\"])" 2 =
      .ok (some (.logical .and (.condition ⟨"a", .present, none⟩)
        (.logical .and (.condition ⟨"b", .contains, some (.integer 1)⟩)
          (.array "c" (.condition ⟨"d", .startsWith, some (.text "$")⟩))))) :=
    parse_of_tokens (by decide) htokens rfl
  have hg : parse "(a pr and b co \"1\") and c[d sw \"$\"]" 1 =
      .ok (some (.logical .and
        (.logical .and (.condition ⟨"a", .present, none⟩)
          (.condition ⟨"b", .contains, some (.text "1")⟩))
        (.array "c" (.condition ⟨"d", .startsWith, some (.text "$")⟩)))) :=
    parse_of_tokens (by decide) htokens' rfl
  exact ⟨_, _, hf, hg, by simp, (compile_eq_iff_normalForm_eq hf hg).mpr rfl⟩

end Filter

end ScimQuery
