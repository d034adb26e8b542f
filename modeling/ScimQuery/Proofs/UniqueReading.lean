import ScimQuery.Proofs.Canonical
import ScimQuery.Proofs.Lexing.Places

/-!
# Each text is that of one filter

The canonical text of a filter is written from its tokens, and scanning the text as it is, with no
brackets padded, gives these tokens back (`scan_of_renders`). The tokens in turn derive the filter
and no other. Hence filters that come from texts have the same canonical text only if they are the
same filter (`text_inj`), whatever the depth that it takes to read that text.

What is the same is decided by `Filter.equal`, which tells such filters apart in the same way as
equality does: none of their numbers is unequal to itself, and of the two zeros they have but one.
-/

namespace ScimQuery

open Grammar

/-! ### From a text to its tokens -/

namespace Token

/-- A text that is written from tokens is scanned as these tokens. -/
theorem scan_of_renders {tokens : List Token} {s : List Char} (h : Renders tokens s) :
    scan s = tokens := by
  induction h with
  | nil => exact scan_nil
  | skip hc hw hq _ _ ih => rw [scan_skip hc hw hq, ih]
  | token htoken hend _ ih => rw [scan_text htoken hend, ih]

end Token

/-! ### From tokens to their filter -/

namespace Filter

theorem tokens_inj {f g : Filter} (hf : f.WellFormed) (hg : g.WellFormed)
    (h : f.tokens = g.tokens) : f = g := by
  -- within both needs, the tokens are parsed as either filter
  have hreadf : ofTokens f.tokens (max f.need g.need) = .ok f :=
    ofTokens_eq_ok_iff.mpr ⟨f.need, isExpression_tokens hf, Nat.le_max_left ..⟩
  have hreadg : ofTokens g.tokens (max f.need g.need) = .ok g :=
    ofTokens_eq_ok_iff.mpr ⟨g.need, isExpression_tokens hg, Nat.le_max_right ..⟩
  rw [h, hreadg] at hreadf
  exact (Except.ok.inj hreadf).symm

/-- The canonical text of a filter is scanned as the tokens of the filter. -/
theorem scan_text {f : Filter} (h : f.WellFormed) : Token.scan f.text.toList = f.tokens := by
  have hrenders := renders_text h.writable
  rw [h.written_eq_self] at hrenders
  exact Token.scan_of_renders hrenders

/-- Filters that come from texts have the same canonical text only if they are the same. -/
theorem text_inj {f g : Filter} (hf : f.WellFormed) (hg : g.WellFormed) :
    f.text = g.text ↔ f = g := by
  constructor
  · intro h
    apply tokens_inj hf hg
    rw [← scan_text hf, h, scan_text hg]
  · exact congrArg text

end Filter

/-! ### Equality of filters that come from texts -/

theorem Operand.equal_iff {x y : Operand} (hx : x.WellFormed) (hy : y.WellFormed) :
    x.equal y = true ↔ x = y := by
  cases x with
  | real a =>
    obtain ⟨m, rfl⟩ := hx
    cases y with
    | real b =>
      -- neither number has a sign, so that they are equal only as the same magnitude
      obtain ⟨n, rfl⟩ := hy
      simp [equal, Binary64.equal]
    | _ => simp [equal]
  | _ => cases y <;> simp [equal]

theorem Condition.equal_iff {a b : Condition} (ha : a.WellFormed) (hb : b.WellFormed) :
    a.equal b = true ↔ a = b := by
  obtain ⟨path, comparator, operand⟩ := a
  obtain ⟨path', comparator', operand'⟩ := b
  cases operand with
  | none => cases operand' <;> simp [equal]
  | some x =>
    cases operand' with
    | none => simp [equal]
    | some y =>
      have hoperand : x.equal y = true ↔ x = y :=
        Operand.equal_iff (ha.operand x rfl) (hb.operand y rfl)
      simp [equal, hoperand, and_assoc]

theorem Filter.equal_iff {f g : Filter} (hf : f.WellFormed) (hg : g.WellFormed) :
    f.equal g = true ↔ f = g := by
  induction f generalizing g with
  | condition a =>
    cases g with
    | condition b => rw [equal_condition, condition.injEq, Condition.equal_iff hf hg]
    | _ => simp [equal, equalPairs]
  | logical c l r ihl ihr =>
    cases g with
    | logical d m s =>
      rw [equal_logical, logical.injEq, Bool.and_eq_true, Bool.and_eq_true, beq_iff_eq,
        ihl hf.1 hg.1, ihr hf.2 hg.2]
    | _ => simp [equal, equalPairs]
  | array p f ih =>
    cases g with
    | array q g => rw [equal_array, array.injEq, Bool.and_eq_true, beq_iff_eq, ih hf.2 hg.2]
    | _ => simp [equal, equalPairs]

/-! ### Filters that have been parsed -/

namespace Filter

/-- Two filters that are parsed from texts, within any limits, have the same canonical text if and
only if they are equal, and then they are one and the same filter. -/
theorem text_eq_iff_equal {source source' : String} {limit limit' : Nat} {f g : Filter}
    (hf : parse source limit = .ok (some f)) (hg : parse source' limit' = .ok (some g)) :
    (f.text = g.text ↔ f.equal g = true) ∧ (f.equal g = true ↔ f = g) := by
  have hequal : f.equal g = true ↔ f = g :=
    equal_iff (wellFormed_of_parse hf) (wellFormed_of_parse hg)
  exact ⟨(text_inj (wellFormed_of_parse hf) (wellFormed_of_parse hg)).trans hequal.symm, hequal⟩

/-- Spaces, brackets that are not needed and the spelling of words do not show in the canonical
text, but a text is not written like the number or the truth value that it looks like. -/
theorem text_eq_of_spellings :
    ∃ f g h, parse "a eq 1 AND c[d sw TRUE]" 1 = .ok (some f) ∧
      parse "(a EQ 01)and(c[ d SW true ])" 2 = .ok (some g) ∧
      parse "a eq \"1\" and c[d sw \"true\"]" 1 = .ok (some h) ∧
      f.text = g.text ∧ f.text ≠ h.text := by
  have htokens : Token.tokenize "a eq 1 AND c[d sw TRUE]" =
      [.word "a", .word "eq", .word "1", .word "AND", .word "c", .opening .square, .word "d",
        .word "sw", .word "TRUE", .closing .square] := by
    decide +kernel
  have htokens' : Token.tokenize "(a EQ 01)and(c[ d SW true ])" =
      [.opening .round, .word "a", .word "EQ", .word "01", .closing .round, .word "and",
        .opening .round, .word "c", .opening .square, .word "d", .word "SW", .word "true",
        .closing .square, .closing .round] := by
    decide +kernel
  have htokens'' : Token.tokenize "a eq \"1\" and c[d sw \"true\"]" =
      [.word "a", .word "eq", .quoted "1", .word "and", .word "c", .opening .square, .word "d",
        .word "sw", .quoted "true", .closing .square] := by
    decide +kernel
  have hf : parse "a eq 1 AND c[d sw TRUE]" 1 =
      .ok (some (.logical .and (.condition ⟨"a", .equal, some (.integer 1)⟩)
        (.array "c" (.condition ⟨"d", .startsWith, some (.boolean true)⟩)))) :=
    parse_of_tokens (by decide) htokens rfl
  have hg : parse "(a EQ 01)and(c[ d SW true ])" 2 =
      .ok (some (.logical .and (.condition ⟨"a", .equal, some (.integer 1)⟩)
        (.array "c" (.condition ⟨"d", .startsWith, some (.boolean true)⟩)))) :=
    parse_of_tokens (by decide) htokens' rfl
  have hh : parse "a eq \"1\" and c[d sw \"true\"]" 1 =
      .ok (some (.logical .and (.condition ⟨"a", .equal, some (.text "1")⟩)
        (.array "c" (.condition ⟨"d", .startsWith, some (.text "true")⟩)))) :=
    parse_of_tokens (by decide) htokens'' rfl
  have hsame := text_eq_iff_equal hf hg
  have hother := text_eq_iff_equal hf hh
  refine ⟨_, _, _, hf, hg, hh, hsame.1.mpr (hsame.2.mpr rfl), fun htext => ?_⟩
  have heq := hother.2.mp (hother.1.mp htext)
  simp at heq

end Filter

end ScimQuery
