import ScimQuery.Proofs.Canonical

/-!
# Which filters come from texts

Every node of a filter that is parsed from a text has a word for a path and, in a condition, an
operand that a token can stand for. These are all the conditions: a filter that meets them at every
node comes from some text (`exists_parse_iff`).

That text need not be the canonical one, whose brackets in literals are padded behind a literal that
ends in a backslash. `Token.spell` puts a backslash in front of the next literal there. It begins no
token, and the padding does not count the mark behind it.
-/

namespace ScimQuery

open Grammar

/-! ### Texts of given tokens -/

namespace Token

/-- A text of some tokens, the first of which stands in what the padding takes for a literal or
not. -/
def spell (inLiteral : Bool) : List Token → List Char
  | [] => []
  | quoted content :: tokens =>
    (if inLiteral then ['\\'] else []) ++ (quoted content).text.toList ++
      ' ' :: spell (endsInBackslash content) tokens
  | token :: tokens => token.text.toList ++ ' ' :: spell inLiteral tokens

theorem spell_of_literal?_eq_none {token : Token} (h : token.literal? = none) (inLiteral : Bool)
    (tokens : List Token) :
    spell inLiteral (token :: tokens) = token.text.toList ++ ' ' :: spell inLiteral tokens := by
  cases token with
  | quoted content => exact absurd h (by simp [literal?])
  | _ => rfl

/-- The first token of a text is taken off along with a space behind it. -/
theorem exists_scan_spacer_text (q : PadState × Bool) {token : Token} (h : token.WellFormed)
    (s : List Char) :
    ∃ q' : PadState × Bool, q'.1 = ⟨(padder.after q.1 token.text.toList).inLiteral, false⟩ ∧
      scan (spacer.writeFrom q (token.text.toList ++ ' ' :: s)) =
        token.respace spacer q :: scan (spacer.writeFrom q' s) := by
  refine ⟨spacer.next (spacer.after q token.text.toList) ' ', ?_, ?_⟩
  · rw [next_spacer_of_passive _ (by decide) (by decide), after_spacer_fst]
  · rw [scan_text_append isSpacer_spacer q h (by simp +decide),
      scan_writeFrom_skip isSpacer_spacer _ rfl rfl (by decide)]

/-- A literal whose opening mark opens one for the padding too is left as it is. -/
theorem exists_scan_spacer_literal {q : PadState × Bool} {content : String}
    (hopen : padder.next q.1 '"' = ⟨true, false⟩) (h : (quoted content).Settled) (s : List Char) :
    ∃ q' : PadState × Bool, q'.1 = ⟨endsInBackslash content, false⟩ ∧
      scan (spacer.writeFrom q ((quoted content).text.toList ++ ' ' :: s)) =
        quoted content :: scan (spacer.writeFrom q' s) := by
  obtain ⟨q', hq', hscan⟩ := exists_scan_spacer_text q h.wellFormed s
  refine ⟨q', ?_, ?_⟩
  · rw [hq', after_padder_literal hopen h.wellFormed, Bool.not_true, Bool.false_xor]
  · rw [hscan, respace_spacer q h.wellFormed, hopen, if_pos rfl, h.collapse_eq content rfl,
      String.ofList_toList]

/-- The tokens are found again, however the padding has been left by what stands before them. -/
theorem scan_spacer_spell {tokens : List Token} (h : ∀ token ∈ tokens, token.Settled)
    {q : PadState × Bool} {inLiteral : Bool} (hq : q.1 = ⟨inLiteral, false⟩) :
    scan (spacer.writeFrom q (spell inLiteral tokens)) = tokens := by
  induction tokens generalizing q inLiteral with
  | nil => simp [spell, isSpacer_spacer.finish_eq]
  | cons token tokens ih =>
    have htoken : token.Settled := h token (by simp)
    have htokens : ∀ token ∈ tokens, token.Settled := fun t ht => h t (List.mem_cons_of_mem _ ht)
    cases hliteral : token.literal? with
    | none =>
      obtain ⟨q', hq', hscan⟩ :=
        exists_scan_spacer_text q htoken.wellFormed (spell inLiteral tokens)
      have hsame : q'.1 = ⟨inLiteral, false⟩ := by
        rw [hq', after_padder_text (by rw [hq]) htoken.wellFormed, misleads, hliteral, hq,
          Option.any_none, Bool.xor_false]
      rw [spell_of_literal?_eq_none hliteral, hscan, ih htokens hsame,
        respace_of_literal?_eq_none hliteral]
    | some content =>
      obtain rfl := literal?_eq_some_iff.mp hliteral
      -- behind the backslash, if there is one, the opening mark opens a literal for the padding
      have hopened : ∀ q : PadState × Bool, padder.next q.1 '"' = ⟨true, false⟩ →
          scan (spacer.writeFrom q ((quoted content).text.toList ++
            ' ' :: spell (endsInBackslash content) tokens)) = quoted content :: tokens := by
        intro q hopen
        obtain ⟨q', hq', hscan⟩ := exists_scan_spacer_literal hopen htoken
          (spell (endsInBackslash content) tokens)
        rw [hscan, ih htokens hq']
      cases inLiteral with
      | false => exact hopened q (by simp [padder, hq])
      | true =>
        have hskip := scan_writeFrom_skip isSpacer_spacer q (c := '\\') rfl rfl (by decide)
          ((quoted content).text.toList ++ ' ' :: spell (endsInBackslash content) tokens)
        refine hskip.trans (hopened _ ?_)
        simp [spacer, Transducer.followedBy, padder, hq]

/-- Tokens that tokenizing can leave are the tokens of some text. -/
theorem tokenize_spell {tokens : List Token} (h : ∀ token ∈ tokens, token.Settled) :
    tokenize (String.ofList (spell false tokens)) = tokens := by
  rw [tokenize_eq, String.toList_ofList]
  exact scan_spacer_spell h rfl

theorem tokenize_of_isBlankText {text : String} (h : Text.isBlankText text) :
    tokenize text = [] := by
  have hblanks := isSpacer_spacer.writeFrom_blanks spacer.start (List.all_eq_true.mp h)
  rw [tokenize_eq, Transducer.write, ← List.append_nil (spacer.writeFrom _ _), scan_blanks hblanks,
    scan_nil]

theorem settled_quoted_iff {s : String} :
    (quoted s).Settled ↔ Text.Quoted.IsContent s.toList ∧ Text.SingleSpaced s.toList := by
  constructor
  · intro h
    exact ⟨h.wellFormed, Text.collapse_eq_self_iff.mp (h.collapse_eq s rfl)⟩
  · rintro ⟨hcontent, hspaced⟩
    refine ⟨hcontent, ?_⟩
    rintro content hs
    cases hs
    exact Text.collapse_eq_self_iff.mpr hspaced

end Token

/-! ### Nodes -/

namespace Filter

/-- Whether a filter is a node of another one. -/
inductive HasNode : Filter → Filter → Prop
  | root (f : Filter) : HasNode f f
  | left {c : Connective} {l r node : Filter} (h : HasNode l node) : HasNode (.logical c l r) node
  | right {c : Connective} {l r node : Filter} (h : HasNode r node) : HasNode (.logical c l r) node
  | inner {path : String} {f node : Filter} (h : HasNode f node) : HasNode (.array path f) node

theorem WellFormed.hasNode {f node : Filter} (h : f.WellFormed) (hnode : f.HasNode node) :
    node.WellFormed := by
  induction hnode with
  | root f => exact h
  | left _ ih => exact ih h.1
  | right _ ih => exact ih h.2
  | inner _ ih => exact ih h.2

/-- A filter is well formed if and only if its nodes are, each by itself. -/
theorem wellFormed_iff_nodes {f : Filter} : f.WellFormed ↔
    (∀ path inner, f.HasNode (.array path inner) → Token.IsWord path) ∧
      ∀ test, f.HasNode (.condition test) → test.WellFormed := by
  constructor
  · intro h
    have hnode := fun node (hnode : f.HasNode node) => h.hasNode hnode
    exact ⟨fun path inner harray => (hnode _ harray).1, fun test htest => hnode _ htest⟩
  · rintro ⟨harray, htest⟩
    induction f with
    | condition test => exact htest test (.root _)
    | logical c l r ihl ihr =>
      exact ⟨ihl (fun path inner h => harray path inner h.left) fun test h => htest test h.left,
        ihr (fun path inner h => harray path inner h.right) fun test h => htest test h.right⟩
    | array path f ih =>
      exact ⟨harray path f (.root _),
        ih (fun path inner h => harray path inner h.inner) fun test h => htest test h.inner⟩

end Filter

/-- What the operand of a well-formed condition is, by its kind. -/
theorem Condition.wellFormed_iff {test : Condition} : test.WellFormed ↔
    Token.IsWord test.path ∧ (test.operand = none ↔ test.comparator = .present) ∧
      (∀ n, test.operand = some (.integer n) → 0 ≤ n.toInt) ∧
      (∀ x, test.operand = some (.real x) → ∃ m, x = .finite false m) ∧
      ∀ s, test.operand = some (.text s) →
        Text.Quoted.IsContent s.toList ∧ Text.SingleSpaced s.toList := by
  constructor
  · rintro ⟨hpath, hnone, hoperand⟩
    exact ⟨hpath, hnone, fun n hn => hoperand _ hn, fun x hx => hoperand _ hx,
      fun s hs => Token.settled_quoted_iff.mp (hoperand _ hs)⟩
  · rintro ⟨hpath, hnone, hinteger, hreal, htext⟩
    refine ⟨hpath, hnone, fun x hx => ?_⟩
    cases x with
    | text s => exact Token.settled_quoted_iff.mpr (htext s hx)
    | integer n => exact hinteger n hx
    | real x => exact hreal x hx
    | boolean b => trivial

/-! ### Texts of filters -/

namespace Filter

/-- A well-formed filter is parsed from a text of its tokens. -/
theorem WellFormed.exists_parse {f : Filter} (h : f.WellFormed) :
    ∃ text limit, parse text limit = .ok (some f) := by
  have htokens := Token.tokenize_spell (settled_of_mem_tokens h)
  have hexpression := isExpression_tokens h
  refine ⟨String.ofList (Token.spell false f.tokens), f.need, parse_of_tokens ?_ htokens ?_⟩
  · rw [← Bool.not_eq_true]
    intro hblank
    rw [Token.tokenize_of_isBlankText hblank] at htokens
    exact hexpression.ne_nil htokens.symm
  · exact ofTokens_eq_ok_iff.mpr ⟨f.need, hexpression, Nat.le_refl _⟩

/-- A filter is parsed from some text if and only if all its paths are words, `present` alone goes
without an operand, numbers are finite and have no sign, and texts can stand in literals and have
single spaces for their white space. -/
theorem exists_parse_iff (f : Filter) :
    (∃ text limit, parse text limit = .ok (some f)) ↔
      (∀ path inner, f.HasNode (.array path inner) → Token.IsWord path) ∧
      ∀ test, f.HasNode (.condition test) →
        Token.IsWord test.path ∧ (test.operand = none ↔ test.comparator = .present) ∧
        (∀ n, test.operand = some (.integer n) → 0 ≤ n.toInt) ∧
        (∀ x, test.operand = some (.real x) → ∃ m, x = .finite false m) ∧
        ∀ s, test.operand = some (.text s) →
          Text.Quoted.IsContent s.toList ∧ Text.SingleSpaced s.toList := by
  simp only [← Condition.wellFormed_iff, ← wellFormed_iff_nodes]
  constructor
  · rintro ⟨text, limit, hparse⟩
    exact wellFormed_of_parse hparse
  · exact WellFormed.exists_parse

end Filter

end ScimQuery
