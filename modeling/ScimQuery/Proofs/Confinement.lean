import ScimQuery.Proofs.Reading.Limits
import ScimQuery.Proofs.RoundTrip

/-!
# Texts stay in their literals

A filter can compare with texts that are made to end their literal, or to keep it open: with marks,
backslashes, brackets and white space of any kind. What is written for them is read as one literal
each. The padding of brackets can lose track of the literals and set brackets in them apart, but all
that it changes in a literal is white space.

So the text of any filter that can be written is read as a filter of the same shape, and its texts
have no influence on that shape (`Filter.ofTokens_text_of_writable`).
-/

namespace ScimQuery

open Grammar

/-! ### White space in literals -/

theorem Text.visible_collapse (s : List Char) : visible (collapse s) = visible s :=
  Transducer.isSpacer_collapser.visible_writeFrom collapser.start s

namespace Token

theorem visible_padder (s : List Char) : Text.visible (padder.write s) = Text.visible s :=
  Transducer.isSpacer_padder.visible_writeFrom padder.start s

theorem map_visible_literals_repadAll (inLiteral : Bool) (tokens : List Token) :
    (literals (repadAll inLiteral tokens)).map (fun s => Text.visible s.toList) =
      (literals tokens).map fun s => Text.visible s.toList := by
  induction tokens generalizing inLiteral with
  | nil => rfl
  | cons token tokens ih =>
    rw [repadAll]
    cases htoken : token.literal? with
    | none =>
      rw [repad_of_literal?_eq_none htoken, literals_cons_of_none htoken,
        literals_cons_of_none htoken]
      exact ih _
    | some content =>
      obtain rfl := literal?_eq_some_iff.mp htoken
      unfold repad
      rw [literals_cons_quoted, literals_cons_quoted, List.map_cons, List.map_cons,
        String.toList_ofList, Text.visible_collapse]
      congr 1
      · cases inLiteral with
        | false => rfl
        | true => exact visible_padder content.toList
      · exact ih _

end Token

/-! ### The shape of what is written -/

namespace Operand

/-- Without its text, what is written for an operand is an operand that comes from a text. -/
theorem wellFormed_shape_written {x : Operand} (h : x.Writable) : x.written.shape.WellFormed := by
  cases x with
  | text s => exact wellFormed_text (by decide) (by decide)
  | integer n => exact h
  | real y =>
    obtain ⟨negative, m, rfl, -⟩ := exists_of_writable_real h
    exact ⟨m, rfl⟩
  | boolean b => trivial

theorem shape_written (x : Operand) : x.written.shape = x.shape.written := by
  cases x with
  | text s => exact congrArg text (by decide)
  | real y => cases y <;> rfl
  | _ => rfl

theorem equal_shape_written {x : Operand} (h : x.Writable) :
    x.written.shape.equal x.shape = true := by
  cases x with
  | real y =>
    obtain ⟨negative, m, rfl, hzero⟩ := exists_of_writable_real h
    cases negative with
    | false => simp [written, shape, equal, Binary64.equal]
    | true => simp [written, shape, equal, Binary64.equal, hzero rfl]
  | _ => simp [written, shape, equal]

end Operand

namespace Condition

theorem wellFormed_shape_written {c : Condition} (h : c.Writable) :
    c.written.shape.WellFormed where
  isWord_path := h.isWord_path
  operand_eq_none_iff := by simpa [written, shape] using h.operand_eq_none_iff
  operand := by
    intro x hx
    simp only [written, shape, Option.map_map, Option.mem_def, Option.map_eq_some_iff] at hx
    obtain ⟨y, hy, rfl⟩ := hx
    exact Operand.wellFormed_shape_written (h.operand y hy)

theorem shape_written (c : Condition) : c.written.shape = c.shape.written := by
  unfold written shape
  simp only [Option.map_map, mk.injEq, true_and]
  exact congrArg (Option.map · c.operand) (funext Operand.shape_written)

theorem equal_shape_written {c : Condition} (h : c.Writable) :
    c.written.shape.equal c.shape = true := by
  obtain ⟨path, comparator, operand⟩ := c
  cases operand with
  | none => simp [written, shape, equal]
  | some x => simpa [written, shape, equal] using Operand.equal_shape_written (h.operand x rfl)

theorem literals_written (c : Condition) :
    Token.literals c.written.tokens =
      (Token.literals c.tokens).map fun s => String.ofList (Text.Quoted.mend s.toList) := by
  obtain ⟨path, comparator, operand⟩ := c
  cases operand with
  | none => rfl
  | some x =>
    cases x with
    | real y => cases y <;> rfl
    | _ => rfl

end Condition

namespace Filter

theorem wellFormed_shape_written {f : Filter} (h : f.Writable) : f.written.shape.WellFormed := by
  induction f with
  | condition c => exact Condition.wellFormed_shape_written h
  | logical c l r ihl ihr => exact ⟨ihl h.1, ihr h.2⟩
  | array path f ih => exact ⟨h.1, ih h.2⟩

theorem shape_written (f : Filter) : f.written.shape = f.shape.written := by
  induction f with
  | condition c => exact congrArg condition c.shape_written
  | logical c l r ihl ihr => exact congrArg₂ (logical c) ihl ihr
  | array path f ih => exact congrArg (array path) ih

theorem equal_shape_written {f : Filter} (h : f.Writable) :
    f.written.shape.equal f.shape = true := by
  induction f with
  | condition c =>
    show equal (.condition c.written.shape) (.condition c.shape) = true
    rw [equal_condition]
    exact Condition.equal_shape_written h
  | logical c l r ihl ihr =>
    show equal (.logical c l.written.shape r.written.shape) (.logical c l.shape r.shape) = true
    rw [equal_logical, ihl h.1, ihr h.2]
    simp
  | array path f ih =>
    show equal (.array path f.written.shape) (.array path f.shape) = true
    rw [equal_array, ih h.2]
    simp

theorem literals_written (f : Filter) :
    f.written.literals = f.literals.map fun s => String.ofList (Text.Quoted.mend s.toList) := by
  induction f with
  | condition c => exact c.literals_written
  | logical c l r ihl ihr =>
    rw [written, literals_logical, literals_logical, ihl, ihr, List.map_append]
  | array path f ih => rw [written, literals_array, literals_array, ih]

/-! ### Reading what is written -/

theorem exists_isExpression_of_writable {f : Filter} (h : f.Writable) :
    ∃ g need, IsExpression (Token.tokenize f.text) g need ∧ g.shape = f.written.shape := by
  have hexpression := isExpression_tokens (wellFormed_shape_written h)
  have htokens : (Token.tokenize f.text).map Token.shape =
      f.written.shape.tokens.map Token.shape := by
    rw [tokenize_text_of_writable h, Token.map_shape_repadAll, tokens_shape, List.map_map]
    exact congrArg (List.map · f.written.tokens) (funext fun token => (token.shape_shape).symm)
  obtain ⟨g, hg, hshape⟩ := hexpression.of_shape htokens
  exact ⟨g, _, hg, hshape.trans (shape_shape _)⟩

/-- Whatever limit the text of a filter is read under, the texts of that filter do not show in the
shape of what it is read as. -/
theorem shape_eq_of_ofTokens_text {f g : Filter} {limit : Nat} (h : f.Writable)
    (hok : ofTokens (Token.tokenize f.text) limit = .ok g) : g.shape = f.written.shape := by
  obtain ⟨g', need, hexpression, hshape⟩ := exists_isExpression_of_writable h
  obtain ⟨need', hexpression', hneed⟩ := ofTokens_eq_ok_iff.mp hok
  have hok' : ofTokens (Token.tokenize f.text) limit = .ok g' :=
    ofTokens_eq_ok_iff.mpr ⟨need, hexpression, need_unique hexpression hexpression' ▸ hneed⟩
  rw [Except.ok.inj (hok.symm.trans hok'), hshape]

/-- The texts come back with the backslashes that they lacked, up to white space. -/
theorem visible_literals_of_isExpression {f g : Filter} {need : Nat} (h : f.Writable)
    (hexpression : IsExpression (Token.tokenize f.text) g need)
    (hshape : g.shape = f.written.shape) :
    g.literals.map (fun s => Text.visible s.toList) =
      f.literals.map fun s => Text.visible (Text.Quoted.mend s.toList) := by
  have hlength : (Token.literals (Token.tokenize f.text)).length = g.literals.length := by
    rw [tokenize_text_of_writable h, Token.length_literals_repadAll]
    exact (length_literals_of_shape hshape).symm
  -- no word among the tokens is read as a text, since all texts are in literals
  have hliterals : Token.literals (Token.tokenize f.text) = g.literals :=
    (sublist_literals hexpression).eq_of_length hlength
  rw [← hliterals, tokenize_text_of_writable h, Token.map_visible_literals_repadAll]
  show f.written.literals.map _ = _
  rw [literals_written, List.map_map]
  simp [Function.comp_def]

/-- The text of a filter that can be written is read under any limit from the number of its tokens
on, as a filter that is equal to it but for its texts; and these are as they were but for the
backslashes that they lacked and for white space. Filters that differ in nothing but their texts are
read as filters that differ in nothing but their texts. -/
theorem ofTokens_text_of_writable {f : Filter} (h : f.Writable) :
    (∀ limit, (Token.tokenize f.text).length ≤ limit →
      ∃ g, ofTokens (Token.tokenize f.text) limit = .ok g ∧ g.shape.equal f.shape = true ∧
        g.literals.map (fun s => Text.visible s.toList) =
          f.literals.map fun s => Text.visible (Text.Quoted.mend s.toList)) ∧
    ∀ f' : Filter, f'.Writable → f'.shape = f.shape → ∀ limit limit' g g',
      ofTokens (Token.tokenize f.text) limit = .ok g →
      ofTokens (Token.tokenize f'.text) limit' = .ok g' → g'.shape = g.shape := by
  constructor
  · intro limit hlimit
    obtain ⟨g, need, hexpression, hshape⟩ := exists_isExpression_of_writable h
    have hneed : need ≤ limit := Nat.le_trans (need_le_length hexpression) hlimit
    refine ⟨g, ofTokens_eq_ok_iff.mpr ⟨need, hexpression, hneed⟩, ?_, ?_⟩
    · rw [hshape]
      exact equal_shape_written h
    · exact visible_literals_of_isExpression h hexpression hshape
  · intro f' h' hf' limit limit' g g' hok hok'
    rw [shape_eq_of_ofTokens_text h hok, shape_eq_of_ofTokens_text h' hok', shape_written,
      shape_written, hf']

/-- A text that ends in a backslash, one that looks like the end of its literal and the beginning of
another condition, and a zero with a sign, next to the same filter with harmless texts. -/
theorem ofTokens_text_of_marks :
    ∃ f f' g g' : Filter, f.Writable ∧ f'.Writable ∧ f'.shape = f.shape ∧
      ofTokens (Token.tokenize f.text) 16 = .ok g ∧
      ofTokens (Token.tokenize f'.text) 16 = .ok g' ∧
      g.shape.equal f.shape = true ∧ g'.shape = g.shape ∧
      g.literals.map (fun s => Text.visible s.toList) =
        ["x\\\\".toList, "\\\"ory[zpr](".toList] := by
  have hwritable : ∀ s t : String,
      (logical .or (logical .and (.condition ⟨"a", .equal, some (.text s)⟩)
        (.array "b" (.condition ⟨"c.d", .contains, some (.text t)⟩)))
        (.condition ⟨"e", .lessEqual, some (.real (.finite true .zero))⟩)).Writable := by
    intro s t
    have hword : ∀ w ∈ ["a", "b", "c.d", "e"], Token.IsWord w := by
      intro w hw
      simp only [List.mem_cons, List.not_mem_nil, or_false] at hw
      rcases hw with rfl | rfl | rfl | rfl <;> exact Token.isWord_of_all (by decide) (by decide)
    refine ⟨⟨⟨hword _ (by simp), by simp, ?_⟩, hword _ (by simp), hword _ (by simp), by simp, ?_⟩,
      hword _ (by simp), by simp, ?_⟩
    · simp [Operand.Writable]
    · simp [Operand.Writable]
    · exact fun x hx => Option.mem_some.mp hx ▸ ⟨.zero, by decide⟩
  have hlength : ∀ s t : String,
      (Token.tokenize (logical .or (logical .and (.condition ⟨"a", .equal, some (.text s)⟩)
        (.array "b" (.condition ⟨"c.d", .contains, some (.text t)⟩)))
        (.condition ⟨"e", .lessEqual, some (.real (.finite true .zero))⟩)).text).length = 16 := by
    intro s t
    rw [tokenize_text_of_writable (hwritable s t)]
    rfl
  obtain ⟨g, hok, hequal, hliterals⟩ :=
    (ofTokens_text_of_writable (hwritable "x\\" "\" or y[z pr](")).1 16 (hlength _ _).le
  obtain ⟨g', hok', -, -⟩ := (ofTokens_text_of_writable (hwritable "x" "y")).1 16 (hlength _ _).le
  have hshape := (ofTokens_text_of_writable (hwritable "x\\" "\" or y[z pr](")).2 _
    (hwritable "x" "y") rfl 16 16 g g' hok hok'
  exact ⟨_, _, g, g', hwritable "x\\" "\" or y[z pr](", hwritable "x" "y", rfl, hok, hok', hequal,
    hshape, hliterals.trans (by decide)⟩

end Filter

end ScimQuery
