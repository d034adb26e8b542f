import ScimQuery.Filter.Text
import ScimQuery.Proofs.Lexing.Rendering
import ScimQuery.Proofs.Writable

/-!
# Parsing the canonical text of a filter

`Filter.tokens` are the tokens that the canonical text of a filter is written from. They derive the
filter at a need of its own (`isChain_tokens`): every pair of brackets that the text has costs a
level, also where the filter was read as a chain that only changed its connective.

The text of a filter that has been parsed is therefore parsed as the same filter if that need is
within the limit and the padding of brackets leaves the literals as they are, and not otherwise.
-/

namespace ScimQuery

open Grammar

/-! ### Tokens of a filter -/

/-- The token of an operand. -/
def Operand.token : Operand → Token
  | .text s => .quoted s
  | operand => .word operand.display

/-- The tokens of a condition. -/
def Condition.tokens (c : Condition) : List Token :=
  .word c.path :: .word c.comparator.keyword :: (c.operand.map Operand.token).toList

namespace Filter

/-- Tokens in round brackets or not. -/
def groupTokens (grouped : Bool) (tokens : List Token) : List Token :=
  if grouped then .opening .round :: (tokens ++ [.closing .round]) else tokens

/-- The tokens of the canonical text of a filter. -/
def tokens : Filter → List Token
  | .condition c => c.tokens
  | .logical c l r =>
    groupTokens (l.connective?.any (· != c)) l.tokens ++
      .word c.keyword :: groupTokens r.connective?.isSome r.tokens
  | .array path f => .word path :: .opening .square :: (f.tokens ++ [.closing .square])

/-- The depth that it takes to read the canonical text of a filter. -/
def need : Filter → Nat
  | .condition _ => 0
  | .logical c l r =>
    max (l.need + if l.connective?.any (· != c) then 1 else 0)
      (r.need + if r.connective?.isSome then 1 else 0)
  | .array _ f => f.need + 1

/-- The texts that the conditions of a filter compare with, from left to right. -/
def literals (f : Filter) : List String := Token.literals f.tokens

end Filter

/-! ### The tokens derive the filter -/

theorem Comparator.lower_keyword (c : Comparator) : Text.lower c.keyword = c.keyword := by
  cases c <;> decide

theorem Connective.lower_keyword (c : Connective) : Text.lower c.keyword = c.keyword := by
  cases c <;> decide

theorem Operand.isOperand_token {operand : Operand} (h : operand.WellFormed) :
    IsOperand operand.token operand := by
  cases htext : operand with
  | text s => exact .quoted s
  | _ =>
    have hread := (ofWord_display h (by simp [htext])).2
    have hword := IsOperand.word operand.display
    rw [hread, htext] at hword
    exact hword

theorem Condition.isCondition_tokens {c : Condition} (h : c.WellFormed) :
    IsCondition c.tokens c := by
  obtain ⟨path, comparator, operand⟩ := c
  have hword : Text.lower comparator.keyword = comparator.keyword := comparator.lower_keyword
  cases operand with
  | none =>
    obtain rfl : comparator = .present := h.operand_eq_none_iff.mp rfl
    exact .present hword
  | some x =>
    have hc : comparator ≠ .present := fun hc => by simpa using h.operand_eq_none_iff.mpr hc
    exact .comparison hword hc (Operand.isOperand_token (h.operand x rfl))

namespace Filter

/-- A chain in round brackets is a term, and so is one without connectives. -/
theorem isTerm_groupTokens {tokens : List Token} {cs : List Connective} {f : Filter} {n : Nat}
    (h : IsChain tokens cs f n) {grouped : Bool} (hcs : grouped = false → cs = []) :
    IsTerm (groupTokens grouped tokens) f (n + if grouped then 1 else 0) := by
  cases grouped with
  | true => exact .group h
  | false =>
    have hnil := hcs rfl
    cases h with
    | term hterm => exact hterm
    | link _ _ _ => exact absurd hnil (by simp)

/-- A chain of one connective has no switches. -/
theorem switches_eq_zero {c : Connective} {cs : List Connective} (h : ∀ d ∈ cs, d = c) :
    switches cs = 0 := by
  induction cs with
  | nil => rfl
  | cons d cs ih =>
    cases cs with
    | nil => rfl
    | cons e rest =>
      have hd : d = c := h d (by simp)
      have he : e = c := h e (by simp)
      rw [switches, ih fun x hx => h x (List.mem_cons_of_mem d hx), hd, he, if_pos rfl]

/-- The tokens of a filter derive it, as a chain of the connective at its root. -/
theorem isChain_tokens {f : Filter} (h : f.WellFormed) :
    ∃ cs, IsChain f.tokens cs f f.need ∧ ∀ c ∈ cs, f.connective? = some c := by
  induction f with
  | condition c => exact ⟨[], .term (.condition (Condition.isCondition_tokens h)), by simp⟩
  | array path f ih =>
    obtain ⟨cs, hchain, -⟩ := ih h.2
    exact ⟨[], .term (.array hchain), by simp⟩
  | logical c l r ihl ihr =>
    obtain ⟨ls, hl, hls⟩ := ihl h.1
    obtain ⟨rs, hr, hrs⟩ := ihr h.2
    -- a chain on the right is always in brackets
    have hright : IsTerm (groupTokens r.connective?.isSome r.tokens) r
        (r.need + if r.connective?.isSome then 1 else 0) := by
      refine isTerm_groupTokens hr fun hnone => ?_
      rw [Option.isSome_eq_false_iff, Option.isNone_iff_eq_none] at hnone
      exact List.eq_nil_iff_forall_not_mem.mpr fun d hd => by simpa [hnone] using hrs d hd
    -- on the left only a chain of the other connective is
    obtain ⟨cs, hleft, hcs⟩ : ∃ cs, IsChain (groupTokens (l.connective?.any (· != c)) l.tokens) cs l
        (l.need + if l.connective?.any (· != c) then 1 else 0) ∧ ∀ d ∈ cs, d = c := by
      by_cases hother : l.connective?.any (· != c)
      · exact ⟨[], .term (isTerm_groupTokens hl (by simp [hother])), by simp⟩
      · refine ⟨ls, by simpa [groupTokens, hother] using hl, fun d hd => ?_⟩
        simpa [hls d hd] using hother
    refine ⟨cs ++ [c], ?_, fun d hd => ?_⟩
    · -- so that the chain has no switches, and all that it needs is for its brackets
      have hlink := IsChain.link hleft c.lower_keyword hright
      have hzero : switches (cs ++ [c]) = 0 :=
        switches_eq_zero fun d hd => (List.mem_append.mp hd).elim (hcs d) (by simp)
      rwa [hzero, Nat.zero_add] at hlink
    · rcases List.mem_append.mp hd with hd | hd
      · rw [hcs d hd]
        rfl
      · rw [List.mem_singleton.mp hd]
        rfl

theorem isExpression_tokens {f : Filter} (h : f.WellFormed) : IsExpression f.tokens f f.need := by
  obtain ⟨cs, hchain, -⟩ := isChain_tokens h
  exact ⟨cs, hchain⟩

end Filter

/-! ### The text is written from the tokens -/

theorem Operand.settled_token {operand : Operand} (h : operand.WellFormed) :
    operand.token.Settled := by
  cases htext : operand with
  | text s =>
    subst htext
    exact h
  | _ =>
    subst htext
    exact (ofWord_display h (by simp)).1.settled_word

theorem Comparator.isWord_keyword (c : Comparator) : Token.IsWord c.keyword := by
  cases c <;> exact Token.isWord_of_all (by decide) (by decide)

theorem Connective.isWord_keyword (c : Connective) : Token.IsWord c.keyword := by
  cases c <;> exact Token.isWord_of_all (by decide) (by decide)

/-- The text of an operand in that of a condition. -/
def Operand.source : Operand → String
  | .text s => Text.Quoted.write s
  | operand => operand.display

/-- The text of a condition, piece by piece. -/
theorem Condition.toList_text (c : Condition) :
    c.text.toList = c.path.toList ++ ' ' :: (c.comparator.keyword.toList ++
      c.operand.elim [] fun x => ' ' :: x.source.toList) := by
  obtain ⟨path, comparator, operand⟩ := c
  cases operand with
  | none => simp [text]
  | some x => cases x <;> simp [text, Operand.source]

section Render

variable {ts : List Token} {s : List Char}

open Token (Renders)

theorem renders_word {w : String} (hw : Token.IsWord w) (hs : Renders ts s)
    (hend : ∀ d ∈ s.head?, Token.isWordChar d = false) :
    Renders (.word w :: ts) (w.toList ++ s) :=
  .token hw (fun _ _ => hend) hs

/-- The text of an operand is written from the token of the operand that is written for it. -/
theorem Operand.renders {x : Operand} (h : x.Writable) (hs : Renders ts s)
    (hend : ∀ d ∈ s.head?, Token.isWordChar d = false) :
    Renders (x.written.token :: ts) (x.source.toList ++ s) := by
  cases x with
  | text t =>
    have hcontent : (Operand.text t).written.token.WellFormed := by
      simpa [written, token, Token.WellFormed] using Text.Quoted.isContent_mend t.toList
    have hliteral := Renders.token hcontent (fun _ _ => hend) hs
    rw [written, token, Token.toList_text_quoted, String.toList_ofList] at hliteral
    simpa [source, written, token, Text.Quoted.write, Text.Quoted.escape_eq_mend] using hliteral
  | real y =>
    obtain ⟨negative, m, rfl, -⟩ := exists_of_writable_real h
    have hword := renders_word (isWord_real m) hs hend
    cases negative with
    | false => exact hword
    | true =>
      have hsign := Renders.skip (c := '-') rfl rfl (by decide) (by decide) hword
      simpa [source, written, token, display, Binary64.text] using hsign
  | integer n => exact renders_word (isWord_integer h) hs hend
  | boolean b =>
    have hwell : (Operand.boolean b).WellFormed := trivial
    exact renders_word (ofWord_display hwell (by simp)).1 hs hend

theorem Condition.renders {c : Condition} (h : c.Writable) (hs : Renders ts s)
    (hend : ∀ d ∈ s.head?, Token.isWordChar d = false) :
    Renders (c.written.tokens ++ ts) (c.text.toList ++ s) := by
  have hspace : ∀ (u : List Char), ∀ d ∈ (' ' :: u).head?, Token.isWordChar d = false := by
    simp +decide
  rw [Condition.toList_text, Condition.tokens, Condition.written]
  cases hoperand : c.operand with
  | none =>
    have hkeyword := renders_word c.comparator.isWord_keyword hs hend
    simpa using renders_word h.isWord_path hkeyword.space (hspace _)
  | some x =>
    have hx := Operand.renders (h.operand x hoperand) hs hend
    have hkeyword := renders_word c.comparator.isWord_keyword hx.space (hspace _)
    simpa using renders_word h.isWord_path hkeyword.space (hspace _)

namespace Filter

/-- The text of a filter in brackets or not is written from its tokens in brackets or not. -/
theorem renders_groupTokens {f : Filter} (grouped : Bool) (hs : Renders ts s)
    (hend : ∀ d ∈ s.head?, Token.isWordChar d = false)
    (h : ∀ {ts : List Token} {s : List Char}, Renders ts s →
      (∀ d ∈ s.head?, Token.isWordChar d = false) →
      Renders (f.written.tokens ++ ts) (f.text.toList ++ s)) :
    Renders (groupTokens grouped f.written.tokens ++ ts) ((operandText grouped f).toList ++ s) := by
  cases grouped with
  | false => exact h hs hend
  | true =>
    have hclose : Renders (.closing .round :: ts) (')' :: s) := hs.bracket rfl
    have hinner := h hclose (by simp +decide)
    have hopen : Renders (.opening .round :: (f.written.tokens ++ .closing .round :: ts))
        ('(' :: (f.text.toList ++ ')' :: s)) := hinner.bracket rfl
    simpa [groupTokens, operandText] using hopen

theorem renders {f : Filter} (h : f.Writable) (hs : Renders ts s)
    (hend : ∀ d ∈ s.head?, Token.isWordChar d = false) :
    Renders (f.written.tokens ++ ts) (f.text.toList ++ s) := by
  induction f generalizing ts s with
  | condition c =>
    rw [text_condition]
    exact Condition.renders h hs hend
  | logical c l r ihl ihr =>
    have hright := renders_groupTokens r.connective?.isSome hs hend fun hs hend => ihr h.2 hs hend
    have hkeyword := renders_word c.isWord_keyword hright.space (by simp +decide)
    have hleft := renders_groupTokens (l.connective?.any (· != c)) hkeyword.space (by simp +decide)
      fun hs hend => ihl h.1 hs hend
    rw [text_logical, written, tokens, connective?_written, connective?_written]
    simpa using hleft
  | array path f ih =>
    have hclose : Renders (.closing .square :: ts) (']' :: s) := hs.bracket rfl
    have hinner := ih h.2 hclose (by simp +decide)
    have hopen : Renders (.opening .square :: (f.written.tokens ++ .closing .square :: ts))
        ('[' :: (f.text.toList ++ ']' :: s)) := hinner.bracket rfl
    have hpath := renders_word h.1 hopen (by simp +decide)
    rw [text_array, written, tokens]
    simpa using hpath

/-- The text of a filter is written from the tokens of the filter that is written for it. -/
theorem renders_text {f : Filter} (h : f.Writable) : Renders f.written.tokens f.text.toList := by
  simpa using renders h .nil (by simp)

end Filter

end Render

/-! ### The literals of a filter -/

/-- Brackets around tokens add no literals to them. -/
theorem literals_enclosed (b : Bracket) (tokens : List Token) :
    Token.literals (.opening b :: (tokens ++ [.closing b])) = Token.literals tokens := by
  have hclose : Token.literals [.closing b] = [] := rfl
  rw [Token.literals_cons_of_none rfl, Token.literals_append, hclose, List.append_nil]

namespace Filter

theorem literals_groupTokens (grouped : Bool) (tokens : List Token) :
    Token.literals (groupTokens grouped tokens) = Token.literals tokens := by
  cases grouped with
  | false => rfl
  | true => exact literals_enclosed .round tokens

theorem literals_logical (c : Connective) (l r : Filter) :
    (logical c l r).literals = l.literals ++ r.literals := by
  rw [literals, tokens, Token.literals_append, Token.literals_cons_of_none rfl,
    literals_groupTokens, literals_groupTokens]
  rfl

theorem literals_array (path : String) (f : Filter) : (array path f).literals = f.literals := by
  rw [literals, tokens, Token.literals_cons_of_none rfl, literals_enclosed]
  rfl

/-- The literals among the tokens of an expression are among those of its filter, which has texts
from words as well. -/
theorem sublist_literals {tokens : List Token} {f : Filter} {n : Nat}
    (h : IsExpression tokens f n) : (Token.literals tokens).Sublist f.literals := by
  obtain ⟨cs, hchain⟩ := h
  have hboth := derivation_induction
    (P := fun tokens f _ => (Token.literals tokens).Sublist f.literals)
    (Q := fun tokens _ f _ => (Token.literals tokens).Sublist f.literals)
    ?condition ?group ?array id ?link
  · exact hboth.2 hchain
  case condition =>
    intro tokens test htest
    cases htest with
    | present hword => exact List.nil_sublist _
    | comparison hword hc hoperand =>
      cases hoperand with
      | quoted content => exact List.Sublist.refl _
      | word word => exact List.nil_sublist _
  case group =>
    intro tokens cs f need ih
    rwa [literals_enclosed]
  case array =>
    intro path tokens cs f need ih
    rwa [literals_array, Token.literals_cons_of_none rfl, literals_enclosed]
  case link =>
    intro left right cs f g m n word c ihl _ ihr
    rw [literals_logical, Token.literals_append, Token.literals_cons_of_none rfl]
    exact ihl.append ihr

theorem settled_of_mem_groupTokens {grouped : Bool} {ts : List Token}
    (h : ∀ token ∈ ts, token.Settled) : ∀ token ∈ groupTokens grouped ts, token.Settled := by
  cases grouped with
  | false => exact h
  | true =>
    intro token hmem
    simp only [groupTokens, if_true, List.mem_cons, List.mem_append, List.not_mem_nil,
      or_false] at hmem
    rcases hmem with rfl | hmem | rfl
    · exact Token.settled_opening .round
    · exact h token hmem
    · exact Token.settled_closing .round

/-- The tokens of a filter are as tokenizing leaves them. -/
theorem settled_of_mem_tokens {f : Filter} (h : f.WellFormed) :
    ∀ token ∈ f.tokens, token.Settled := by
  induction f with
  | condition c =>
    intro token hmem
    simp only [tokens, Condition.tokens, List.mem_cons, Option.mem_toList, Option.map_eq_some_iff]
      at hmem
    rcases hmem with rfl | rfl | ⟨x, hx, rfl⟩
    · exact h.isWord_path.settled_word
    · exact c.comparator.isWord_keyword.settled_word
    · exact Operand.settled_token (h.operand x hx)
  | logical c l r ihl ihr =>
    intro token hmem
    simp only [tokens, List.mem_append, List.mem_cons] at hmem
    rcases hmem with hmem | rfl | hmem
    · exact settled_of_mem_groupTokens (ihl h.1) token hmem
    · exact c.isWord_keyword.settled_word
    · exact settled_of_mem_groupTokens (ihr h.2) token hmem
  | array path f ih =>
    intro token hmem
    simp only [tokens, List.mem_cons, List.mem_append, List.not_mem_nil, or_false] at hmem
    rcases hmem with rfl | rfl | hmem | rfl
    · exact Token.IsWord.settled_word h.1
    · exact Token.settled_opening .square
    · exact ih h.2 token hmem
    · exact Token.settled_closing .square

/-! ### Parsing the text -/

theorem tokenize_text_of_writable {f : Filter} (h : f.Writable) :
    Token.tokenize f.text = Token.repadAll false f.written.tokens := by
  have htokens := Token.tokenize_of_renders (renders_text h)
  rwa [String.ofList_toList] at htokens

theorem tokenize_text {f : Filter} (h : f.WellFormed) :
    Token.tokenize f.text = Token.repadAll false f.tokens := by
  have htokens := tokenize_text_of_writable h.writable
  rwa [h.written_eq_self] at htokens

theorem isBlankText_text {f : Filter} (h : f.WellFormed) : Text.isBlankText f.text = false := by
  have hrenders := renders_text h.writable
  rw [h.written_eq_self] at hrenders
  obtain ⟨c, hc, hblank⟩ := hrenders.exists_not_isBlank (isExpression_tokens h).ne_nil
  rw [Text.isBlankText, List.all_eq_false]
  exact ⟨c, hc, by simp [hblank]⟩

/-- The tokens of the text of a filter are parsed as that filter if and only if its need is within
the limit and the padding of brackets leaves them as they are. -/
theorem ofTokens_text_eq_iff {f : Filter} {limit : Nat} (h : f.WellFormed) :
    ofTokens (Token.tokenize f.text) limit = .ok f ↔
      f.need ≤ limit ∧ Token.repadAll false f.tokens = f.tokens := by
  have hderived := isExpression_tokens h
  rw [ofTokens_eq_ok_iff, tokenize_text h]
  constructor
  · rintro ⟨need, hexpression, hneed⟩
    -- the tokens that are left have all the literals that the filter has
    have hliterals : Token.literals (Token.repadAll false f.tokens) = f.literals :=
      (sublist_literals hexpression).eq_of_length (Token.length_literals_repadAll false f.tokens)
    have hself := Token.repadAll_eq_self_of_literals hliterals
    rw [hself] at hexpression
    exact ⟨need_unique hderived hexpression ▸ hneed, hself⟩
  · rintro ⟨hneed, hself⟩
    rw [hself]
    exact ⟨f.need, hderived, hneed⟩

theorem parse_text_eq_iff {f : Filter} {limit : Nat} (h : f.WellFormed) :
    parse f.text limit = .ok (some f) ↔
      f.need ≤ limit ∧ Token.repadAll false f.tokens = f.tokens := by
  rw [parse_eq_ok_some_iff, ← ofTokens_eq_ok_iff, ofTokens_text_eq_iff h]
  exact and_iff_right (isBlankText_text h)

/-- The text of a filter that comes from a text is parsed as the same filter if and only if its need
is within the limit and every literal in it has its brackets set apart that stands behind an odd
number of literals which end in a backslash. -/
theorem parse_text_iff {source : String} {limit : Nat} {f : Filter}
    (h : parse source limit = .ok (some f)) :
    parse f.text limit = .ok (some f) ↔
      f.need ≤ limit ∧ ∀ front s back, f.literals = front ++ s :: back →
        front.countP Token.endsInBackslash % 2 = 1 → Token.setApart s.toList := by
  have hwell := wellFormed_of_parse h
  rw [parse_text_eq_iff hwell, Token.repadAll_eq_self_iff (settled_of_mem_tokens hwell)]
  simp [Token.outOfStep, literals]

/-- The chain changes its connective behind a group, which its text puts into another group. -/
theorem parse_text_ne_of_group_in_chain :
    ∃ f, parse "x pr and (a pr or b pr) or c pr" 1 = .ok (some f) ∧
      parse f.text 1 ≠ .ok (some f) := by
  have htokens : Token.tokenize "x pr and (a pr or b pr) or c pr" =
      [.word "x", .word "pr", .word "and", .opening .round, .word "a", .word "pr", .word "or",
        .word "b", .word "pr", .closing .round, .word "or", .word "c", .word "pr"] := by
    decide +kernel
  have hparse : parse "x pr and (a pr or b pr) or c pr" 1 =
      .ok (some (.logical .or (.logical .and (.condition ⟨"x", .present, none⟩)
        (.logical .or (.condition ⟨"a", .present, none⟩) (.condition ⟨"b", .present, none⟩)))
        (.condition ⟨"c", .present, none⟩))) :=
    parse_of_tokens (by decide) htokens rfl
  refine ⟨_, hparse, fun hagain => ?_⟩
  -- the text needs two levels
  exact absurd ((parse_text_iff hparse).mp hagain).1 (by decide)

/-- Behind the backslash in front of the second literal the padding is in step again, but that
backslash is no part of a token and is not written. -/
theorem parse_text_ne_of_lost_backslash :
    ∃ f, parse "a eq \"x\\\\\" and b eq \\\"(y)\"" Parser.defaultLimit = .ok (some f) ∧
      parse f.text Parser.defaultLimit ≠ .ok (some f) := by
  have htokens : Token.tokenize "a eq \"x\\\\\" and b eq \\\"(y)\"" =
      [.word "a", .word "eq", .quoted "x\\\\", .word "and", .word "b", .word "eq",
        .quoted "(y)"] := by
    decide +kernel
  have hparse : parse "a eq \"x\\\\\" and b eq \\\"(y)\"" Parser.defaultLimit =
      .ok (some (.logical .and (.condition ⟨"a", .equal, some (.text "x\\\\")⟩)
        (.condition ⟨"b", .equal, some (.text "(y)")⟩))) :=
    parse_of_tokens (by decide) htokens rfl
  refine ⟨_, hparse, fun hagain => ?_⟩
  exact absurd ((parse_text_eq_iff (wellFormed_of_parse hparse)).mp hagain).2 (by decide)

end Filter

end ScimQuery
