import ScimQuery.Proofs.Canonical

/-!
# Reading back the text of any filter

A well-formed filter need not have been parsed. It may hold all texts that a literal can hold, in
any order, and lean to either side. Tokenizing its text gives the tokens of the filter but for the
contents of literals, since these are all that the padding can change, and tokens that differ in
nothing else derive filters of the same shape and the same need (`IsExpression.of_shape`).

`ofTokens_text` follows: the need of the filter alone decides whether its text is read, what it is
read as has the shape of the filter, and it is the filter itself exactly where the padding leaves
the literals alone.
-/

namespace ScimQuery

open Grammar

/-! ### What a literal can hold -/

/-- A text is an operand that comes from a text if all of its marks and its last backslash have a
backslash of their own in front of them, and if its white space is single spaces. -/
theorem Operand.wellFormed_text_iff {s : String} :
    (Operand.text s).WellFormed ↔
      Text.Quoted.IsContent s.toList ∧ Text.SingleSpaced s.toList := by
  rw [← Text.collapse_eq_self_iff]
  constructor
  · intro h
    exact ⟨h.wellFormed, h.collapse_eq s rfl⟩
  · rintro ⟨hcontent, hcollapse⟩
    refine ⟨hcontent, fun content heq => ?_⟩
    obtain rfl := Token.quoted.inj heq
    exact hcollapse

/-- It is enough that a literal with this content is read to its end. -/
theorem Operand.wellFormed_text {s : String}
    (hread : Text.Quoted.read? (s.toList ++ ['"']) = some (s.toList, []))
    (hcollapse : Text.collapse s.toList = s.toList) : (Operand.text s).WellFormed :=
  wellFormed_text_iff.mpr
    ⟨(Text.Quoted.read?_eq_some_iff.mp hread).1, Text.collapse_eq_self_iff.mp hcollapse⟩

/-! ### Shapes -/

namespace Token

/-- A token without the content of its literal. -/
def shape : Token → Token
  | quoted _ => quoted ""
  | token => token

theorem shape_of_literal?_eq_none {token : Token} (h : token.literal? = none) :
    token.shape = token := by
  cases token with
  | quoted content => exact absurd h (by simp [literal?])
  | _ => rfl

/-- Only literals have a shape that others have too. -/
theorem shape_eq_iff {token other : Token} (h : token.literal? = none) :
    other.shape = token ↔ other = token := by
  constructor
  · intro heq
    cases other with
    | quoted content => exact absurd h (by simp [← heq, shape, literal?])
    | _ => exact heq
  · rintro rfl
    exact shape_of_literal?_eq_none h

theorem exists_of_shape_eq_quoted {token : Token} {content : String}
    (h : token.shape = (quoted content).shape) : ∃ other, token = quoted other := by
  cases token with
  | quoted other => exact ⟨other, rfl⟩
  | _ => exact absurd h (by simp [shape])

section Shapes

variable {token : Token} {ts us : List Token}

theorem exists_of_map_shape_cons (h : token.literal? = none)
    (hshape : us.map shape = (token :: ts).map shape) :
    ∃ us', us = token :: us' ∧ us'.map shape = ts.map shape := by
  rw [List.map_cons, List.map_eq_cons_iff] at hshape
  obtain ⟨other, us', rfl, hother, hrest⟩ := hshape
  rw [shape_of_literal?_eq_none h, shape_eq_iff h] at hother
  exact ⟨us', by rw [hother], hrest⟩

theorem exists_of_map_shape_enclosed {b : Bracket}
    (hshape : us.map shape = (opening b :: (ts ++ [closing b])).map shape) :
    ∃ us', us = opening b :: (us' ++ [closing b]) ∧ us'.map shape = ts.map shape := by
  obtain ⟨rest, rfl, hrest⟩ := exists_of_map_shape_cons rfl hshape
  rw [List.map_append, List.map_eq_append_iff] at hrest
  obtain ⟨us', last, rfl, hinner, hlast⟩ := hrest
  obtain ⟨_, rfl, hnil⟩ := exists_of_map_shape_cons rfl hlast
  rw [List.map_nil, List.map_eq_nil_iff] at hnil
  exact ⟨us', by rw [hnil], hinner⟩

end Shapes

/-- The padding changes nothing but literals. -/
theorem map_shape_repadAll (inLiteral : Bool) (tokens : List Token) :
    (repadAll inLiteral tokens).map shape = tokens.map shape := by
  induction tokens generalizing inLiteral with
  | nil => rfl
  | cons token tokens ih =>
    rw [repadAll, List.map_cons, List.map_cons, ih]
    cases token <;> rfl

theorem shape_shape (token : Token) : token.shape.shape = token.shape := by cases token <;> rfl

theorem length_literals_map_shape (tokens : List Token) :
    (literals (tokens.map shape)).length = (literals tokens).length := by
  induction tokens with
  | nil => rfl
  | cons token tokens ih =>
    cases token with
    | quoted content => exact congrArg (· + 1) ih
    | _ => exact ih

end Token

/-- An operand without its text. -/
def Operand.shape : Operand → Operand
  | .text _ => .text ""
  | operand => operand

/-- A condition without the text that it compares with. -/
def Condition.shape (c : Condition) : Condition := { c with operand := c.operand.map Operand.shape }

/-- A filter without the texts that its conditions compare with. -/
def Filter.shape : Filter → Filter
  | .condition c => .condition c.shape
  | .logical c l r => .logical c l.shape r.shape
  | .array path f => .array path f.shape

theorem Condition.tokens_shape (c : Condition) : c.shape.tokens = c.tokens.map Token.shape := by
  obtain ⟨path, comparator, operand⟩ := c
  cases operand with
  | none => rfl
  | some x => cases x <;> rfl

namespace Filter

@[simp] theorem connective?_shape (f : Filter) : f.shape.connective? = f.connective? := by
  cases f <;> rfl

theorem map_shape_groupTokens (grouped : Bool) (tokens : List Token) :
    (groupTokens grouped tokens).map Token.shape =
      groupTokens grouped (tokens.map Token.shape) := by
  cases grouped with
  | false => rfl
  | true => simp [groupTokens, Token.shape]

theorem tokens_shape (f : Filter) : f.shape.tokens = f.tokens.map Token.shape := by
  induction f with
  | condition c => exact Condition.tokens_shape c
  | logical c l r ihl ihr =>
    simp only [shape, tokens, connective?_shape, ihl, ihr, List.map_append, List.map_cons,
      map_shape_groupTokens]
    rfl
  | array path f ih => simp [shape, tokens, ih, Token.shape]

theorem shape_shape (f : Filter) : f.shape.shape = f.shape := by
  induction f with
  | condition c =>
    obtain ⟨path, comparator, operand⟩ := c
    cases operand with
    | none => rfl
    | some x => cases x <;> rfl
  | logical c l r ihl ihr => exact congrArg₂ (logical c) ihl ihr
  | array path f ih => exact congrArg (array path) ih

/-- Filters of one shape have equally many texts. -/
theorem length_literals_of_shape {f g : Filter} (h : g.shape = f.shape) :
    g.literals.length = f.literals.length := by
  have hlength : ∀ f : Filter, f.shape.literals.length = f.literals.length := by
    intro f
    unfold literals
    rw [tokens_shape, Token.length_literals_map_shape]
  rw [← hlength g, h, hlength f]

end Filter

/-! ### Derivations by shape -/

section Derivations

variable {tokens us : List Token} {f : Filter} {need : Nat}

theorem Grammar.IsCondition.of_shape {test : Condition} (h : IsCondition tokens test)
    (hshape : us.map Token.shape = tokens.map Token.shape) :
    ∃ other, IsCondition us other ∧ other.shape = test.shape := by
  cases h with
  | present hword =>
    obtain ⟨words, rfl, hwords⟩ := Token.exists_of_map_shape_cons rfl hshape
    obtain ⟨rest, rfl, hrest⟩ := Token.exists_of_map_shape_cons rfl hwords
    obtain rfl := List.map_eq_nil_iff.mp hrest
    exact ⟨_, .present hword, rfl⟩
  | comparison hword hc hoperand =>
    obtain ⟨words, rfl, hwords⟩ := Token.exists_of_map_shape_cons rfl hshape
    obtain ⟨last, rfl, hlast⟩ := Token.exists_of_map_shape_cons rfl hwords
    cases hoperand with
    | quoted content =>
      obtain ⟨token, rest, rfl, htoken, hrest⟩ := List.map_eq_cons_iff.mp hlast
      obtain rfl := List.map_eq_nil_iff.mp hrest
      obtain ⟨other, rfl⟩ := Token.exists_of_shape_eq_quoted htoken
      exact ⟨_, .comparison hword hc (.quoted other), rfl⟩
    | word word =>
      obtain ⟨rest, rfl, hrest⟩ := Token.exists_of_map_shape_cons rfl hlast
      obtain rfl := List.map_eq_nil_iff.mp hrest
      exact ⟨_, .comparison hword hc (.word word), rfl⟩

/-- Tokens of one shape derive filters of one shape, at the same need. -/
theorem Grammar.IsExpression.of_shape (h : IsExpression tokens f need)
    (hshape : us.map Token.shape = tokens.map Token.shape) :
    ∃ g, IsExpression us g need ∧ g.shape = f.shape := by
  obtain ⟨cs, hchain⟩ := h
  have hboth := derivation_induction
    (P := fun tokens f need => ∀ us, us.map Token.shape = tokens.map Token.shape →
      ∃ g, IsTerm us g need ∧ g.shape = f.shape)
    (Q := fun tokens cs f need => ∀ us, us.map Token.shape = tokens.map Token.shape →
      ∃ g, IsChain us cs g need ∧ g.shape = f.shape)
    ?condition ?group ?array ?term ?link
  · obtain ⟨g, hg, hgshape⟩ := hboth.2 hchain us hshape
    exact ⟨g, ⟨cs, hg⟩, hgshape⟩
  case condition =>
    intro tokens test htest us hshape
    obtain ⟨other, hother, hotherShape⟩ := htest.of_shape hshape
    exact ⟨_, .condition hother, congrArg Filter.condition hotherShape⟩
  case group =>
    intro tokens cs f need ih us hshape
    obtain ⟨us', rfl, hinner⟩ := Token.exists_of_map_shape_enclosed hshape
    obtain ⟨g, hg, hgshape⟩ := ih us' hinner
    exact ⟨g, .group hg, hgshape⟩
  case array =>
    intro path tokens cs f need ih us hshape
    obtain ⟨_, rfl, hrest⟩ := Token.exists_of_map_shape_cons rfl hshape
    obtain ⟨us', rfl, hinner⟩ := Token.exists_of_map_shape_enclosed hrest
    obtain ⟨g, hg, hgshape⟩ := ih us' hinner
    exact ⟨_, .array hg, congrArg (Filter.array path) hgshape⟩
  case term =>
    intro tokens f need ih us hshape
    obtain ⟨g, hg, hgshape⟩ := ih us hshape
    exact ⟨g, .term hg, hgshape⟩
  case link =>
    intro left right cs f g m n word c ihl hword ihr us hshape
    rw [List.map_append, List.map_eq_append_iff] at hshape
    obtain ⟨left', rest, rfl, hleft, hrest⟩ := hshape
    obtain ⟨right', rfl, hright⟩ := Token.exists_of_map_shape_cons rfl hrest
    obtain ⟨f', hf, hfshape⟩ := ihl left' hleft
    obtain ⟨g', hg, hgshape⟩ := ihr right' hright
    exact ⟨_, .link hf hword hg, congrArg₂ (Filter.logical c) hfshape hgshape⟩

end Derivations

/-! ### Reading texts back -/

namespace Filter

theorem exists_isExpression_text {f : Filter} (h : f.WellFormed) :
    ∃ g, IsExpression (Token.tokenize f.text) g f.need ∧ g.shape = f.shape := by
  rw [tokenize_text h]
  exact (isExpression_tokens h).of_shape (Token.map_shape_repadAll false f.tokens)

/-- The text of a well-formed filter is read back as a filter of the same shape if its need is
within the limit, and refused for its depth otherwise. It is read back as the filter itself if and
only if every literal has its brackets set apart that stands behind an odd number of literals which
end in a backslash. -/
theorem ofTokens_text {f : Filter} (h : f.WellFormed) (limit : Nat) :
    (f.need ≤ limit → ∃ g, ofTokens (Token.tokenize f.text) limit = .ok g ∧ g.shape = f.shape ∧
      (g = f ↔ ∀ front s back, f.literals = front ++ s :: back →
        front.countP Token.endsInBackslash % 2 = 1 → Token.setApart s.toList)) ∧
    (limit < f.need → ∃ position,
      ofTokens (Token.tokenize f.text) limit = .error (.nestingTooDeep limit position)) := by
  obtain ⟨g, hexpression, hshape⟩ := exists_isExpression_text h
  constructor
  · intro hneed
    have hok : ofTokens (Token.tokenize f.text) limit = .ok g :=
      ofTokens_eq_ok_iff.mpr ⟨f.need, hexpression, hneed⟩
    have hself : ofTokens (Token.tokenize f.text) limit = .ok f ↔ _ := ofTokens_text_eq_iff h
    rw [hok, Except.ok.injEq, and_iff_right hneed,
      Token.repadAll_eq_self_iff (settled_of_mem_tokens h)] at hself
    refine ⟨g, hok, hshape, ?_⟩
    simpa [Token.outOfStep, literals] using hself
  · exact ofTokens_tooDeep hexpression

/-- The names of operators are paths like others, and a run that leans to the right is read back
with one level for its brackets. -/
theorem ofTokens_text_of_leaning_run :
    ∃ f : Filter, f.WellFormed ∧ ofTokens (Token.tokenize f.text) 2 = .ok f ∧
      ∃ position, ofTokens (Token.tokenize f.text) 1 = .error (.nestingTooDeep 1 position) := by
  have hliteral : (Operand.text "\\\" (y)").WellFormed :=
    Operand.wellFormed_text (by decide) (by decide)
  have hleft : Condition.WellFormed ⟨"and", .contains, some (.text "\\\" (y)")⟩ :=
    ⟨Token.isWord_of_all (by decide) (by decide), by simp, by simpa using hliteral⟩
  have hmember : Condition.WellFormed ⟨"c", .equal, some (.integer 7)⟩ :=
    ⟨Token.isWord_of_all (by decide) (by decide), by simp, by simp [Operand.WellFormed]⟩
  have hlast : Condition.WellFormed ⟨"d", .present, none⟩ :=
    ⟨Token.isWord_of_all (by decide) (by decide), by simp, by simp⟩
  have hf : (logical .and (.condition _)
      (logical .and (.array "eq" (.condition _)) (.condition _))).WellFormed :=
    ⟨hleft, ⟨Token.isWord_of_all (by decide) (by decide), hmember⟩, hlast⟩
  obtain ⟨g, hok, -, hself⟩ := (ofTokens_text hf 2).1 (by decide)
  have hfilter := hself.mpr fun front s back hsplit hodd => by
    -- there is one literal, and none in front of it
    have hlength : 1 = (front ++ s :: back).length := congrArg List.length hsplit
    rw [List.length_append, List.length_cons] at hlength
    obtain rfl := List.eq_nil_of_length_eq_zero (l := front) (by omega)
    exact absurd hodd (by decide)
  exact ⟨_, hf, hfilter ▸ hok, (ofTokens_text hf 1).2 (by decide)⟩

/-- The padding takes the mark behind the backslashes for an escaped one, and sets the brackets of
the other literal apart. -/
theorem ofTokens_text_ne_of_backslashes :
    ∃ f : Filter, f.WellFormed ∧ f.need ≤ Parser.defaultLimit ∧
      ofTokens (Token.tokenize f.text) Parser.defaultLimit ≠ .ok f := by
  have hbackslashes : (Operand.text "x\\\\").WellFormed :=
    Operand.wellFormed_text (by decide) (by decide)
  have hbrackets : (Operand.text "(y)").WellFormed :=
    Operand.wellFormed_text (by decide) (by decide)
  have hleft : Condition.WellFormed ⟨"a", .equal, some (.text "x\\\\")⟩ :=
    ⟨Token.isWord_of_all (by decide) (by decide), by simp, by simpa using hbackslashes⟩
  have hright : Condition.WellFormed ⟨"b", .equal, some (.text "(y)")⟩ :=
    ⟨Token.isWord_of_all (by decide) (by decide), by simp, by simpa using hbrackets⟩
  have hf : (logical .and (.condition _) (.condition _)).WellFormed := ⟨hleft, hright⟩
  refine ⟨_, hf, by decide, fun hok => ?_⟩
  exact absurd ((ofTokens_text_eq_iff hf).mp hok).2 (by decide)

end Filter

end ScimQuery
