import ScimQuery.Filter.Parser
import ScimQuery.Proofs.Operands
import ScimQuery.Proofs.Parsing

/-!
# Filters that come from texts

A filter that is parsed from a text is a tree of words and operands that have been taken off the
text. `Filter.WellFormed` says what that leaves possible: paths are words, `present` alone goes
without an operand, and operands are what a word or a literal can be.
-/

namespace ScimQuery

open Grammar

/-- Whether a condition can come from a text. -/
structure Condition.WellFormed (c : Condition) : Prop where
  isWord_path : Token.IsWord c.path
  operand_eq_none_iff : c.operand = none ↔ c.comparator = .present
  operand : ∀ x ∈ c.operand, x.WellFormed

namespace Filter

/-- Whether a filter can come from a text. -/
def WellFormed : Filter → Prop
  | .condition c => c.WellFormed
  | .logical _ l r => l.WellFormed ∧ r.WellFormed
  | .array path f => Token.IsWord path ∧ f.WellFormed

end Filter

namespace Grammar

theorem IsOperand.wellFormed {token : Token} {operand : Operand} (h : IsOperand token operand)
    (htoken : token.Settled) : operand.WellFormed := by
  cases h with
  | quoted content => exact htoken
  | word word => exact Operand.wellFormed_ofWord htoken.wellFormed

theorem IsCondition.wellFormed {tokens : List Token} {test : Condition}
    (h : IsCondition tokens test) (htokens : ∀ token ∈ tokens, token.Settled) :
    test.WellFormed := by
  cases h with
  | @present path word hword =>
    have hpath : (Token.word path).Settled := htokens _ (by simp)
    exact ⟨hpath.wellFormed, by simp, by simp⟩
  | @comparison path word c token operand hword hc hoperand =>
    have hpath : (Token.word path).Settled := htokens _ (by simp)
    have hx : operand.WellFormed := hoperand.wellFormed (htokens _ (by simp))
    exact ⟨hpath.wellFormed, by simpa using hc, by simpa using hx⟩

/-- What is derived from settled tokens is well formed. -/
theorem IsExpression.wellFormed {tokens : List Token} {f : Filter} {need : Nat}
    (h : IsExpression tokens f need) (htokens : ∀ token ∈ tokens, token.Settled) :
    f.WellFormed := by
  obtain ⟨cs, hchain⟩ := h
  have hboth := derivation_induction
    (P := fun tokens f _ => (∀ token ∈ tokens, token.Settled) → f.WellFormed)
    (Q := fun tokens _ f _ => (∀ token ∈ tokens, token.Settled) → f.WellFormed)
    (fun htest => htest.wellFormed) ?group ?array id ?link
  · exact hboth.2 hchain htokens
  case group =>
    intro tokens cs f need ih htokens
    exact ih fun token hmem => htokens token (by simp [hmem])
  case array =>
    intro path tokens cs f need ih htokens
    have hpath : (Token.word path).Settled := htokens _ (by simp)
    exact ⟨hpath.wellFormed, ih fun token hmem => htokens token (by simp [hmem])⟩
  case link =>
    intro left right cs f g m n word c ihl _ ihr htokens
    exact ⟨ihl fun token hmem => htokens token (by simp [hmem]),
      ihr fun token hmem => htokens token (by simp [hmem])⟩

end Grammar

namespace Filter

/-- A text is parsed as a filter if and only if it is not blank and its tokens are an expression of
that filter whose need is within the limit. -/
theorem parse_eq_ok_some_iff {text : String} {limit : Nat} {f : Filter} :
    parse text limit = .ok (some f) ↔ Text.isBlankText text = false ∧
      ∃ need, IsExpression (Token.tokenize text) f need ∧ need ≤ limit := by
  rw [← ofTokens_eq_ok_iff]
  unfold parse
  cases Text.isBlankText text with
  | true => simp
  | false =>
    cases ofTokens (Token.tokenize text) limit with
    | error e => simp [Except.map]
    | ok g => simp [Except.map]

theorem parse_eq_ok_none_iff {text : String} {limit : Nat} :
    parse text limit = .ok none ↔ Text.isBlankText text := by
  unfold parse
  cases Text.isBlankText text with
  | true => simp
  | false => cases ofTokens (Token.tokenize text) limit <;> simp [Except.map]

theorem parse_of_tokens {text : String} {tokens : List Token} {limit : Nat} {f : Filter}
    (hblank : Text.isBlankText text = false) (htokens : Token.tokenize text = tokens)
    (h : ofTokens tokens limit = .ok f) : parse text limit = .ok (some f) := by
  rw [parse_eq_ok_some_iff, ← ofTokens_eq_ok_iff, htokens]
  exact ⟨hblank, h⟩

theorem wellFormed_of_parse {text : String} {limit : Nat} {f : Filter}
    (h : parse text limit = .ok (some f)) : f.WellFormed := by
  obtain ⟨-, need, hexpression, -⟩ := parse_eq_ok_some_iff.mp h
  exact hexpression.wellFormed fun token hmem => Token.settled_of_mem_tokenize hmem

end Filter

end ScimQuery
