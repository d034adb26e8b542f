import ScimQuery.Proofs.Lexing.Padding

/-!
# Texts that are written from tokens

`Renders tokens s` says that `s` is the text of some tokens with spaces between them, at least where
two words would run together, and perhaps with other characters that begin no token. Scanning such a
text gives the tokens back, but the padding of brackets comes first: it has lost track of the
literals behind every other one that ends in a backslash. `scan_spacer_of_renders` gives the tokens
that are left, and `repadAll_eq_self_iff` says when they are those that the text was written from.
-/

namespace ScimQuery

namespace Token

/-! ### Texts of tokens -/

/-- A text made of the texts of tokens and of characters that are skipped, in which no word runs
into the next token. -/
inductive Renders : List Token → List Char → Prop
  | nil : Renders [] []
  | skip {c : Char} {tokens : List Token} {s : List Char} (hc : ofBracket? c = none)
      (hw : isWordChar c = false) (hq : c ≠ '"') (hb : c ≠ '\\') (h : Renders tokens s) :
      Renders tokens (c :: s)
  | token {token : Token} {tokens : List Token} {s : List Char} (htoken : token.WellFormed)
      (hend : ∀ w, token = .word w → ∀ d ∈ s.head?, isWordChar d = false)
      (h : Renders tokens s) : Renders (token :: tokens) (token.text.toList ++ s)

theorem Renders.space {tokens : List Token} {s : List Char} (h : Renders tokens s) :
    Renders tokens (' ' :: s) :=
  .skip rfl rfl (by decide) (by decide) h

theorem toList_text_opening (b : Bracket) : (opening b).text.toList = [b.opening] := by
  simp [text]

theorem toList_text_closing (b : Bracket) : (closing b).text.toList = [b.closing] := by
  simp [text]

theorem toList_text_quoted (content : String) :
    (quoted content).text.toList = '"' :: content.toList ++ ['"'] := by
  simp [text]

theorem ofBracket?_opening (b : Bracket) : ofBracket? b.opening = some (.opening b) :=
  ofBracket?_eq_some_iff.mpr ⟨b, .inl ⟨rfl, rfl⟩⟩

theorem ofBracket?_closing (b : Bracket) : ofBracket? b.closing = some (.closing b) :=
  ofBracket?_eq_some_iff.mpr ⟨b, .inr ⟨rfl, rfl⟩⟩

theorem toList_text_of_ofBracket? {c : Char} {token : Token} (h : ofBracket? c = some token) :
    token.text.toList = [c] := by
  obtain ⟨b, ⟨rfl, rfl⟩ | ⟨rfl, rfl⟩⟩ := ofBracket?_eq_some_iff.mp h
  · exact toList_text_opening b
  · exact toList_text_closing b

theorem ofBracket?_ne_word (c : Char) (w : String) : ofBracket? c ≠ some (.word w) := by
  intro h
  obtain ⟨b, ⟨-, heq⟩ | ⟨-, heq⟩⟩ := ofBracket?_eq_some_iff.mp h <;> cases heq

theorem ofBracket?_ne_quoted (c : Char) (content : String) :
    ofBracket? c ≠ some (.quoted content) := by
  intro h
  obtain ⟨b, ⟨-, heq⟩ | ⟨-, heq⟩⟩ := ofBracket?_eq_some_iff.mp h <;> cases heq

/-- The text of a token has a first character, and that is no white space. -/
theorem exists_text_eq_cons {token : Token} (h : token.WellFormed) :
    ∃ c s, token.text.toList = c :: s ∧ Text.isBlank c = false := by
  cases token with
  | opening b => exact ⟨b.opening, [], toList_text_opening b, by cases b <;> decide⟩
  | closing b => exact ⟨b.closing, [], toList_text_closing b, by cases b <;> decide⟩
  | quoted content => exact ⟨'"', _, toList_text_quoted content, by decide⟩
  | word w =>
    cases hw : w.toList with
    | nil => exact absurd hw h.1
    | cons c s =>
      refine ⟨c, s, hw, isBlank_eq_false_of_isWordChar (h.2 c ?_)⟩
      rw [hw]
      simp

/-- Only the text of no tokens is blank. -/
theorem Renders.exists_not_isBlank {tokens : List Token} {s : List Char} (h : Renders tokens s)
    (hne : tokens ≠ []) : ∃ c ∈ s, Text.isBlank c = false := by
  induction h with
  | nil => exact absurd rfl hne
  | @skip d _ _ _ _ _ _ _ ih =>
    obtain ⟨c, hc, hblank⟩ := ih hne
    exact ⟨c, List.mem_cons_of_mem d hc, hblank⟩
  | token htoken _ _ _ =>
    obtain ⟨c, rest, htext, hblank⟩ := exists_text_eq_cons htoken
    exact ⟨c, by rw [htext]; simp, hblank⟩

theorem Renders.bracket {c : Char} {token : Token} {tokens : List Token} {s : List Char}
    (h : Renders tokens s) (hc : ofBracket? c = some token) :
    Renders (token :: tokens) (c :: s) := by
  have hbracket : Renders (token :: tokens) (token.text.toList ++ s) :=
    .token (wellFormed_of_ofBracket? hc) (fun w hw => absurd (hw ▸ hc) (ofBracket?_ne_word c w)) h
  rwa [toList_text_of_ofBracket? hc] at hbracket

theorem locate_text (before : List Char) {token : Token} {s : List Char} (htoken : token.WellFormed)
    (hend : ∀ w, token = .word w → ∀ d ∈ s.head?, isWordChar d = false) :
    locate before (token.text.toList ++ s) =
      (before, token) :: locate (before ++ token.text.toList) s := by
  cases token with
  | opening b =>
    rw [toList_text_opening]
    exact locate_bracket before (ofBracket?_opening b) s
  | closing b =>
    rw [toList_text_closing]
    exact locate_bracket before (ofBracket?_closing b) s
  | word w =>
    have hplace := locate_word before htoken.1 htoken.2 (hend w rfl)
    rwa [String.ofList_toList] at hplace
  | quoted content =>
    have hread : Text.Quoted.read? (content.toList ++ '"' :: s) = some (content.toList, s) :=
      Text.Quoted.read?_eq_some_iff.mpr ⟨htoken, rfl⟩
    have hplace := locate_quoted before hread
    rw [String.ofList_toList] at hplace
    rw [toList_text_quoted]
    simpa using hplace

/-- A spacer keeps the first token of a text and goes on behind it. -/
theorem scan_text_append {σ : Type} {t : Transducer σ} (ht : t.IsSpacer) (q : σ) {token : Token}
    {s : List Char} (htoken : token.WellFormed)
    (hend : ∀ w, token = .word w → ∀ d ∈ s.head?, isWordChar d = false) :
    scan (t.writeFrom q (token.text.toList ++ s)) =
      token.respace t q :: scan (t.writeFrom (t.after q token.text.toList) s) := by
  have hall := scan_writeFrom ht q [] (token.text.toList ++ s)
  rw [locate_text [] htoken hend, List.map_cons, List.nil_append, ← scan_writeFrom ht] at hall
  exact hall

/-! ### What the padding leaves of them -/

/-- Whether the last character of a text is a backslash. Behind a literal with such a content the
padding is out of step with the scanner, or in step again. -/
def endsInBackslash (s : String) : Bool := s.toList.getLast? == some '\\'

/-- The content of a literal. -/
def literal? : Token → Option String
  | quoted content => some content
  | _ => none

/-- The contents of the literals among some tokens, in their order. -/
def literals (tokens : List Token) : List String := tokens.filterMap literal?

theorem literals_cons_of_none {token : Token} (h : token.literal? = none) (tokens : List Token) :
    literals (token :: tokens) = literals tokens :=
  List.filterMap_cons_none h

theorem literals_cons_quoted (content : String) (tokens : List Token) :
    literals (quoted content :: tokens) = content :: literals tokens := rfl

@[simp] theorem literals_append (front back : List Token) :
    literals (front ++ back) = literals front ++ literals back :=
  List.filterMap_append

theorem literal?_eq_some_iff {token : Token} {content : String} :
    token.literal? = some content ↔ token = quoted content := by
  cases token <;> simp [literal?]

/-- Whether a token is a literal behind which the padding is out of step. -/
def misleads (token : Token) : Bool := token.literal?.any endsInBackslash

/-- A token as it is left where the padding takes literals for text, or text for literals. -/
def repad (inLiteral : Bool) : Token → Token
  | quoted content => quoted (String.ofList (Text.collapse
      (if inLiteral then padder.write content.toList else content.toList)))
  | token => token

theorem repad_of_literal?_eq_none {token : Token} (h : token.literal? = none) (inLiteral : Bool) :
    token.repad inLiteral = token := by
  cases token with
  | quoted content => exact absurd h (by simp [literal?])
  | _ => rfl

theorem respace_of_literal?_eq_none {token : Token} (h : token.literal? = none) {σ : Type}
    (t : Transducer σ) (q : σ) : token.respace t q = token := by
  cases token with
  | quoted content => exact absurd h (by simp [literal?])
  | _ => rfl

/-- Tokens as they are left by the padding, which takes the first of them to stand in a literal or
not. -/
def repadAll (inLiteral : Bool) : List Token → List Token
  | [] => []
  | token :: tokens => token.repad inLiteral :: repadAll (inLiteral ^^ token.misleads) tokens

/-- Characters other than marks and backslashes change nothing for the padding, and a backslash
before them is forgotten. -/
theorem after_padder_cons_of_passive {q : PadState} {c : Char} {s : List Char}
    (h : ∀ d ∈ c :: s, d ≠ '"' ∧ d ≠ '\\') :
    padder.after q (c :: s) = ⟨q.inLiteral, false⟩ := by
  induction s generalizing q c with
  | nil =>
    obtain ⟨hmark, hback⟩ := h c (by simp)
    simp [padder, hmark, hback]
  | cons d s ih =>
    obtain ⟨hmark, hback⟩ := h c (by simp)
    have hnext : padder.next q c = ⟨q.inLiteral, false⟩ := by simp [padder, hmark, hback]
    rw [Transducer.after_cons, hnext]
    exact ih fun e he => h e (List.mem_cons_of_mem c he)

theorem after_padder_of_passive {q : PadState} (hq : q.afterBackslash = false) {s : List Char}
    (h : ∀ c ∈ s, c ≠ '"' ∧ c ≠ '\\') : padder.after q s = ⟨q.inLiteral, false⟩ := by
  cases s with
  | nil => exact congrArg (PadState.mk q.inLiteral) hq
  | cons c s => exact after_padder_cons_of_passive h

theorem next_spacer_of_passive (q : PadState × Bool) {c : Char} (hq : c ≠ '"') (hb : c ≠ '\\') :
    (spacer.next q c).1 = ⟨q.1.inLiteral, false⟩ := by
  simp [spacer, Transducer.followedBy, padder, hq, hb]

theorem afterBackslash_after_padder (inLiteral : Bool) (s : List Char) :
    (padder.after ⟨inLiteral, false⟩ s).afterBackslash = (s.getLast? == some '\\') := by
  rcases List.eq_nil_or_concat s with rfl | ⟨front, c, rfl⟩
  · rfl
  · rw [List.concat_eq_append, Transducer.after_append, List.getLast?_append]
    exact Bool.eq_iff_iff.mpr (by simp [padder])

/-- Only literals have marks or backslashes in their texts. -/
theorem passive_of_literal?_eq_none {token : Token} (htoken : token.WellFormed)
    (h : token.literal? = none) : ∀ c ∈ token.text.toList, c ≠ '"' ∧ c ≠ '\\' := by
  cases token with
  | opening b =>
    rw [toList_text_opening, List.forall_mem_singleton]
    cases b <;> decide
  | closing b =>
    rw [toList_text_closing, List.forall_mem_singleton]
    cases b <;> decide
  | word w => exact fun c hc => ne_of_isWordChar (htoken.2 c hc)
  | quoted content => exact absurd h (by simp [literal?])

/-- The closing mark ends the literal for the padding, unless a backslash stands before it. -/
theorem after_padder_literal {q : PadState} {inside : Bool}
    (hopen : padder.next q '"' = ⟨inside, false⟩) {content : String}
    (h : (quoted content).WellFormed) :
    padder.after q (quoted content).text.toList = ⟨!inside ^^ endsInBackslash content, false⟩ := by
  have hinside : (padder.after ⟨inside, false⟩ content.toList).inLiteral = inside := by
    rw [after_padder, freeMarksFrom_content h]
    exact Bool.xor_false _
  have hback := afterBackslash_after_padder inside content.toList
  rw [toList_text_quoted, List.cons_append, Transducer.after_cons, hopen, Transducer.after_append]
  generalize padder.after ⟨inside, false⟩ content.toList = behind at hinside hback
  simp only [Transducer.after_cons, Transducer.after_nil, padder, endsInBackslash, hinside, hback]
  cases content.toList.getLast? == some '\\' <;> cases inside <;> rfl

/-- The padding is out of step behind a literal that ends in a backslash, or in step again if it has
been out of step before. -/
theorem after_padder_text {q : PadState} (hq : q.afterBackslash = false) {token : Token}
    (h : token.WellFormed) :
    padder.after q token.text.toList = ⟨q.inLiteral ^^ token.misleads, false⟩ := by
  cases htoken : token.literal? with
  | none =>
    rw [after_padder_of_passive hq (passive_of_literal?_eq_none h htoken), misleads, htoken,
      Option.any_none, Bool.xor_false]
  | some content =>
    obtain rfl := literal?_eq_some_iff.mp htoken
    have hopen : padder.next q '"' = ⟨!q.inLiteral, false⟩ := by simp [padder, hq]
    rw [after_padder_literal hopen h, Bool.not_not, misleads, htoken, Option.any_some]

/-- The tokens of a text that has been written from tokens. -/
theorem scan_spacer_of_renders {tokens : List Token} {s : List Char} (h : Renders tokens s)
    {q : PadState × Bool} (hq : q.1.afterBackslash = false) :
    scan (spacer.writeFrom q s) = repadAll q.1.inLiteral tokens := by
  induction h generalizing q with
  | nil => simp [isSpacer_spacer.finish_eq, repadAll]
  | @skip c _ _ hc hw hmark hback _ ih =>
    -- the state of the second pass may change here, but no token depends on it
    have hnext := next_spacer_of_passive q hmark hback
    rw [scan_writeFrom_skip isSpacer_spacer q hc hw hmark, ih (by rw [hnext]), hnext]
  | @token token tokens s htoken hend _ ih =>
    have hbehind : (spacer.after q token.text.toList).1 =
        ⟨q.1.inLiteral ^^ token.misleads, false⟩ := by
      rw [after_spacer_fst, after_padder_text hq htoken]
    have hfirst : token.respace spacer q = token.repad q.1.inLiteral := by
      cases token with
      | quoted content =>
        have hopen : (padder.next q.1 '"').inLiteral = !q.1.inLiteral := by simp [padder, hq]
        rw [respace_spacer q htoken, hopen, repad]
        cases q.1.inLiteral <;> rfl
      | opening b => rfl
      | closing b => rfl
      | word w => rfl
    -- the first token is left as `repad` says, and the others as from the state behind it
    rw [scan_text_append isSpacer_spacer q htoken hend, hfirst,
      ih (by rw [hbehind]), hbehind, repadAll]

/-- The tokens of a text that has been written from tokens are those, as the padding leaves them. -/
theorem tokenize_of_renders {tokens : List Token} {s : List Char} (h : Renders tokens s) :
    tokenize (String.ofList s) = repadAll false tokens := by
  rw [tokenize_eq, String.toList_ofList]
  exact scan_spacer_of_renders h rfl

/-! ### Literals -/

theorem length_literals_repadAll (inLiteral : Bool) (tokens : List Token) :
    (literals (repadAll inLiteral tokens)).length = (literals tokens).length := by
  induction tokens generalizing inLiteral with
  | nil => rfl
  | cons token tokens ih =>
    unfold literals repadAll
    cases htoken : token.literal? with
    | none =>
      rw [repad_of_literal?_eq_none htoken, List.filterMap_cons_none htoken,
        List.filterMap_cons_none htoken]
      exact ih _
    | some content =>
      obtain rfl := literal?_eq_some_iff.mp htoken
      simpa [repad, literal?, literals] using ih _

/-- Tokens are what they were if their literals are. -/
theorem repadAll_eq_self_of_literals {inLiteral : Bool} {tokens : List Token}
    (h : literals (repadAll inLiteral tokens) = literals tokens) :
    repadAll inLiteral tokens = tokens := by
  induction tokens generalizing inLiteral with
  | nil => rfl
  | cons token tokens ih =>
    unfold literals repadAll at h
    rw [repadAll]
    cases htoken : token.literal? with
    | none =>
      rw [repad_of_literal?_eq_none htoken, List.filterMap_cons_none htoken,
        List.filterMap_cons_none htoken] at h
      rw [repad_of_literal?_eq_none htoken, ih h]
    | some content =>
      obtain rfl := literal?_eq_some_iff.mp htoken
      simp only [repad, literal?, List.filterMap_cons, List.cons.injEq] at h
      rw [repad, h.1, ih h.2]

theorem repadAll_eq_self_of_literals_eq_nil {inLiteral : Bool} {tokens : List Token}
    (h : literals tokens = []) : repadAll inLiteral tokens = tokens := by
  have hlength := length_literals_repadAll inLiteral tokens
  rw [h] at hlength
  exact repadAll_eq_self_of_literals (by rw [h, List.eq_nil_of_length_eq_zero hlength])

/-- Tokens can be written with a space behind each of them. -/
theorem renders_spaced {tokens : List Token} (h : ∀ token ∈ tokens, token.WellFormed) :
    Renders tokens (tokens.flatMap fun token => token.text.toList ++ [' ']) := by
  induction tokens with
  | nil => exact .nil
  | cons token tokens ih =>
    have hrest := ih fun t ht => h t (List.mem_cons_of_mem token ht)
    rw [List.flatMap_cons, List.append_assoc]
    exact .token (h token (by simp)) (by simp +decide) hrest.space

/-- Tokens without literals are those of some text. -/
theorem exists_tokenize_eq {tokens : List Token} (hwell : ∀ token ∈ tokens, token.WellFormed)
    (hliterals : literals tokens = []) (hne : tokens ≠ []) :
    ∃ text, tokenize text = tokens ∧ Text.isBlankText text = false := by
  refine ⟨String.ofList (tokens.flatMap fun token => token.text.toList ++ [' ']), ?_, ?_⟩
  · rw [tokenize_of_renders (renders_spaced hwell), repadAll_eq_self_of_literals_eq_nil hliterals]
  · obtain ⟨c, hc, hblank⟩ := (renders_spaced hwell).exists_not_isBlank hne
    rw [Text.isBlankText, String.toList_ofList, List.all_eq_false]
    exact ⟨c, hc, by simp [hblank]⟩

/-- A literal that the padding takes for text stays as it is if its brackets have been set apart. -/
theorem repad_quoted_eq_self_iff {inLiteral : Bool} {content : String}
    (h : (quoted content).Settled) :
    (quoted content).repad inLiteral = quoted content ↔
      (inLiteral = true → setApart content.toList) := by
  have hcollapse := h.collapse_eq content rfl
  cases inLiteral with
  | false => simp [repad, hcollapse]
  | true =>
    rw [repad, if_pos rfl, quoted.injEq, ← String.toList_inj, String.toList_ofList]
    conv => lhs; rhs; rw [← hcollapse]
    simpa using collapse_padder_eq_iff h.wellFormed

/-- Whether the padding is out of step behind some literals, if it has been in step before. -/
def outOfStep (contents : List String) : Bool := contents.countP endsInBackslash % 2 == 1

theorem outOfStep_cons (content : String) (contents : List String) :
    outOfStep (content :: contents) = (endsInBackslash content ^^ outOfStep contents) := by
  unfold outOfStep
  rw [List.countP_cons]
  rcases Nat.mod_two_eq_zero_or_one (contents.countP endsInBackslash) with h | h
  · cases endsInBackslash content <;> simp [Nat.add_mod, h]
  · cases endsInBackslash content <;> simp [Nat.add_mod, h]

/-- Tokens stay as they are if and only if every literal among them has its brackets set apart that
stands where the padding is out of step. -/
theorem repadAll_eq_self_iff {inLiteral : Bool} {tokens : List Token}
    (h : ∀ token ∈ tokens, token.Settled) :
    repadAll inLiteral tokens = tokens ↔
      ∀ front s back, literals tokens = front ++ s :: back →
        (inLiteral ^^ outOfStep front) = true → setApart s.toList := by
  induction tokens generalizing inLiteral with
  | nil => simp [repadAll, literals]
  | cons token tokens ih =>
    have htokens : ∀ token ∈ tokens, token.Settled := fun t ht => h t (List.mem_cons_of_mem _ ht)
    unfold literals repadAll
    cases htoken : token.literal? with
    | none =>
      rw [repad_of_literal?_eq_none htoken, List.filterMap_cons_none htoken, misleads, htoken,
        Option.any_none, Bool.xor_false, List.cons.injEq, ih htokens]
      simp [literals]
    | some content =>
      obtain rfl := literal?_eq_some_iff.mp htoken
      rw [List.filterMap_cons_some htoken, misleads, htoken, Option.any_some, List.cons.injEq,
        repad_quoted_eq_self_iff (h _ (by simp)), ih htokens]
      -- a literal is either this one or stands behind it, which counts for its place
      constructor
      · rintro ⟨hfirst, hrest⟩ front s back hsplit hstep
        cases front with
        | nil =>
          rw [List.nil_append, List.cons.injEq] at hsplit
          rw [← hsplit.1]
          exact hfirst (by simpa [outOfStep] using hstep)
        | cons first front =>
          rw [List.cons_append, List.cons.injEq] at hsplit
          rw [outOfStep_cons, ← Bool.xor_assoc, ← hsplit.1] at hstep
          exact hrest front s back hsplit.2 hstep
      · intro hall
        refine ⟨fun hin => hall [] content _ rfl (by simpa [outOfStep] using hin), ?_⟩
        intro front s back hsplit hstep
        refine hall (content :: front) s back ?_ ?_
        · exact congrArg (content :: ·) hsplit
        · rwa [outOfStep_cons, ← Bool.xor_assoc]

end Token

end ScimQuery
