import ScimQuery.Proofs.Canonical
import ScimQuery.Proofs.Runs

/-!
# Chains of one connective

However many terms one connective joins, the chain is read as a filter that grows to the left and
needs no more than the deepest of its terms (`isChain_links`), since only a change of the connective
costs a level. The query for it is one list: a term that is a run of the same connective itself adds
its own queries to the list, in its place, and every other term adds its query (`ofTokens_chain`).
-/

namespace ScimQuery

open Grammar

/-! ### Reading a chain -/

namespace Grammar

/-- A connective in a chain and the term behind it. -/
structure Link where
  /-- The word that the connective is spelled as. -/
  word : String
  /-- The tokens of the term. -/
  tokens : List Token
  /-- What the term stands for. -/
  filter : Filter

/-- The tokens of a connective and of the term behind it. -/
def Link.source (x : Link) : List Token := .word x.word :: x.tokens

/-- Whether tokens are one term, and are parsed within a limit as what it stands for. -/
structure AcceptsTerm (limit : Nat) (tokens : List Token) (f : Filter) : Prop where
  isTerm : ∃ need, IsTerm tokens f need
  ofTokens_eq : Filter.ofTokens tokens limit = .ok f

theorem AcceptsTerm.exists_need {limit : Nat} {tokens : List Token} {f : Filter}
    (h : AcceptsTerm limit tokens f) : ∃ need, IsTerm tokens f need ∧ need ≤ limit := by
  obtain ⟨need, hterm⟩ := h.isTerm
  obtain ⟨n, hexpression, hn⟩ := Filter.ofTokens_eq_ok_iff.mp h.ofTokens_eq
  -- a term is an expression, and all derivations of one need the same
  have hneed : need = n := Filter.need_unique ⟨[], .term hterm⟩ hexpression
  exact ⟨need, hterm, hneed ▸ hn⟩

/-- A chain of one connective goes on as long as it may without needing more than its terms. -/
theorem isChain_links {c : Connective} {limit : Nat} {left : List Token} {cs : List Connective}
    {f : Filter} {m : Nat} {links : List Link} (hleft : IsChain left cs f m) (hm : m ≤ limit)
    (hcs : ∀ d ∈ cs, d = c)
    (hlinks : ∀ x ∈ links, Text.lower x.word = c.keyword ∧
      ∃ need, IsTerm x.tokens x.filter need ∧ need ≤ limit) :
    ∃ ds need, IsChain (left ++ links.flatMap Link.source) ds
      ((links.map Link.filter).foldl (.logical c) f) need ∧ need ≤ limit := by
  induction links generalizing left cs f m with
  | nil =>
    rw [List.flatMap_nil, List.append_nil]
    exact ⟨cs, m, hleft, hm⟩
  | cons x links ih =>
    obtain ⟨hword, n, hterm, hn⟩ := hlinks x (by simp)
    have hall : ∀ d ∈ cs ++ [c], d = c := fun d hd => (List.mem_append.mp hd).elim (hcs d) (by simp)
    have hlink := IsChain.link hleft hword hterm
    -- no connective differs from the one before it, so that the longer chain needs no more levels
    rw [Filter.switches_eq_zero hall, Nat.zero_add] at hlink
    obtain ⟨ds, need, hchain, hneed⟩ := ih hlink (Nat.max_le.mpr ⟨hm, hn⟩) hall
      fun y hy => hlinks y (List.mem_cons_of_mem x hy)
    rw [List.append_assoc] at hchain
    exact ⟨ds, need, hchain, hneed⟩

end Grammar

/-! ### The query for a chain -/

/-- The queries that a document joins. -/
def Json.items : Json → List Json
  | .object [(_, .array queries)] => queries
  | _ => []

namespace Filter

/-- What a filter adds to the queries of a chain: its own ones if it is a run of the connective of
the chain, and otherwise the query for it. -/
def queriesIn (c : Connective) (f : Filter) : List Json :=
  if f.connective? = some c then f.compile.items else [f.compile]

/-- The document of a connective joins the queries for the operands of its run. -/
theorem compile_of_connective? {c : Connective} {f : Filter} (h : f.connective? = some c) :
    f.compile = .single c.queryKey (.array ((f.operands c).map compile)) := by
  cases f with
  | logical d l r =>
    obtain rfl : d = c := Option.some.inj h
    rw [compile_logical, operands, if_pos rfl]
  | _ => exact absurd h (by simp [connective?])

theorem operands_of_connective?_ne {c : Connective} {f : Filter} (h : f.connective? ≠ some c) :
    f.operands c = [f] := by
  cases f with
  | logical d l r =>
    have hne : c ≠ d := fun heq => h (congrArg some heq.symm)
    rw [operands, if_neg hne]
  | _ => rfl

theorem queriesIn_eq (c : Connective) (f : Filter) :
    f.queriesIn c = (f.operands c).map compile := by
  unfold queriesIn
  split
  · rename_i h
    rw [compile_of_connective? h]
    rfl
  · rename_i h
    rw [operands_of_connective?_ne h, List.map_singleton]

/-- The operands of a chain are those of its terms, in their order. -/
theorem operands_foldl (c : Connective) (f : Filter) (fs : List Filter) :
    (fs.foldl (logical c) f).operands c = (f :: fs).flatMap (operands c) := by
  induction fs generalizing f with
  | nil => simp
  | cons g fs ih =>
    rw [List.foldl_cons, ih, List.flatMap_cons, operands, if_pos rfl, List.append_assoc]
    rfl

theorem connective?_foldl {c : Connective} {f : Filter} {fs : List Filter} (hne : fs ≠ []) :
    (fs.foldl (logical c) f).connective? = some c := by
  rcases List.eq_nil_or_concat fs with rfl | ⟨front, g, rfl⟩
  · exact absurd rfl hne
  · rw [List.concat_eq_append, List.foldl_append]
    rfl

/-- The query for a chain is one document, and every term adds its queries to it. -/
theorem compile_foldl {c : Connective} {f : Filter} {fs : List Filter} (hne : fs ≠ []) :
    (fs.foldl (logical c) f).compile =
      .single c.queryKey (.array ((f :: fs).flatMap (queriesIn c))) := by
  have hqueries : queriesIn c = fun g => (operands c g).map compile := funext (queriesIn_eq c)
  rw [compile_of_connective? (connective?_foldl hne), operands_foldl, hqueries, List.map_flatMap]

/-! ### From tokens to a query -/

/-- Terms that are accepted within a limit are accepted within the same limit when one connective,
spelled in any way, joins them to a chain. The chain is the filter that grows to the left, and its
query is one document in which each term has its queries, from left to right. -/
theorem ofTokens_chain {c : Connective} {limit : Nat} {first : List Token} {f : Filter}
    {links : List Link} (hfirst : AcceptsTerm limit first f) (hne : links ≠ [])
    (hlinks : ∀ x ∈ links, Text.lower x.word = c.keyword ∧ AcceptsTerm limit x.tokens x.filter) :
    ∃ g, ofTokens (first ++ links.flatMap Link.source) limit = .ok g ∧
      g = (links.map Link.filter).foldl (logical c) f ∧
      g.compile =
        .single c.queryKey (.array ((f :: links.map Link.filter).flatMap (queriesIn c))) := by
  obtain ⟨m, hterm, hm⟩ := hfirst.exists_need
  obtain ⟨cs, need, hchain, hneed⟩ := isChain_links (.term hterm) hm (by simp)
    fun x hx => ⟨(hlinks x hx).1, (hlinks x hx).2.exists_need⟩
  refine ⟨_, ofTokens_eq_ok_iff.mpr ⟨need, ⟨cs, hchain⟩, hneed⟩, rfl, compile_foldl ?_⟩
  simpa using hne

/-- A group of the same connective gives its conditions to the chain, while one of the other
connective and an array stay whole. The level that each of them takes for itself is enough. -/
theorem ofTokens_chain_of_groups :
    ∃ g, ofTokens
        [.opening .round, .word "a", .word "pr", .word "or", .word "b", .word "pr", .closing .round,
          .word "AND",
          .opening .round, .word "a", .word "pr", .word "and", .word "b", .word "pr",
          .closing .round,
          .word "aNd", .word "c", .opening .square, .word "b", .word "pr", .closing .square] 1 =
        .ok g ∧
      g.compile = .single "$and" (.array
        [.single "$or" (.array
          [.single "a" (.single "$exists" (.boolean true)),
            .single "b" (.single "$exists" (.boolean true))]),
          .single "a" (.single "$exists" (.boolean true)),
          .single "b" (.single "$exists" (.boolean true)),
          .single "c" (.single "$elemMatch"
            (.single "b" (.single "$exists" (.boolean true))))]) := by
  have hpresent : ∀ path, IsTerm [.word path, .word "pr"] (.condition ⟨path, .present, none⟩) 0 :=
    fun path => .condition (.present (by decide))
  have hor : AcceptsTerm 1 [.opening .round, .word "a", .word "pr", .word "or", .word "b",
        .word "pr", .closing .round]
      (.logical .or (.condition ⟨"a", .present, none⟩) (.condition ⟨"b", .present, none⟩)) :=
    ⟨⟨_, .group (.link (.term (hpresent "a")) (by decide) (hpresent "b"))⟩, rfl⟩
  have hand : AcceptsTerm 1 [.opening .round, .word "a", .word "pr", .word "and", .word "b",
        .word "pr", .closing .round]
      (.logical .and (.condition ⟨"a", .present, none⟩) (.condition ⟨"b", .present, none⟩)) :=
    ⟨⟨_, .group (.link (.term (hpresent "a")) (by decide) (hpresent "b"))⟩, rfl⟩
  have harray : AcceptsTerm 1 [.word "c", .opening .square, .word "b", .word "pr",
        .closing .square] (.array "c" (.condition ⟨"b", .present, none⟩)) :=
    ⟨⟨_, .array (.term (hpresent "b"))⟩, rfl⟩
  have hlinks : ∀ x ∈ [Link.mk "AND" _ _, Link.mk "aNd" _ _],
      Text.lower x.word = Connective.and.keyword ∧ AcceptsTerm 1 x.tokens x.filter :=
    List.forall_mem_cons.mpr ⟨⟨by decide, hand⟩, by simpa using ⟨by decide, harray⟩⟩
  obtain ⟨g, hparse, -, hquery⟩ := ofTokens_chain hor (by simp) hlinks
  refine ⟨g, hparse, hquery.trans ?_⟩
  simp [queriesIn_eq, operands, compile_logical, compile_array, compile_condition, Condition.query,
    Condition.test, Connective.queryKey]

end Filter

end ScimQuery
