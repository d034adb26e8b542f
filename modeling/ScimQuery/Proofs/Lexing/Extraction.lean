import ScimQuery.Proofs.Lexing.Padding

/-!
# Tokens as matches of a pattern

A token is a match of the pattern `[()\[\]] | [A-Za-z0-9_.]+ | "(?:[^"\\]|\\.)*"`: a bracket, a word
or a literal. `Extracts` is what taking all matches off a text means: the leftmost match comes
first, it is the longest one there, and the others are taken off the text behind it. The pattern is
matched against a text whose white space is reduced to spaces, so that a `.` stands for any
character.

The text whose matches a filter is meant to have is `trim (collapse s)`, without any padding.
`tokenize_extracts_iff` says for which filters the padding changes nothing.
-/

namespace ScimQuery

namespace Token

/-- The pattern of tokens: what it matches, and the token that a match is. -/
inductive IsLexeme : List Char → Token → Prop
  | bracket {c : Char} {token : Token} (h : ofBracket? c = some token) : IsLexeme [c] token
  | word {w : List Char} (hne : w ≠ []) (hw : ∀ c ∈ w, isWordChar c) :
      IsLexeme w (.word (String.ofList w))
  | quoted {content : List Char} (h : Text.Quoted.IsContent content) :
      IsLexeme ('"' :: content ++ ['"']) (.quoted (String.ofList content))

/-- The matches of the pattern in a text, from left to right, as tokens. -/
inductive Extracts : List Char → List Token → Prop
  | done {s : List Char}
      (hnone : ∀ front lexeme back token, s = front ++ lexeme ++ back → ¬ IsLexeme lexeme token) :
      Extracts s []
  | next {skipped lexeme rest : List Char} {token : Token} {tokens : List Token}
      (hlexeme : IsLexeme lexeme token)
      (hleftmost : ∀ front other back token', skipped ++ lexeme ++ rest = front ++ other ++ back →
        IsLexeme other token' → skipped.length ≤ front.length)
      (hlongest : ∀ other back token', lexeme ++ rest = other ++ back → IsLexeme other token' →
        other.length ≤ lexeme.length)
      (hrest : Extracts rest tokens) :
      Extracts (skipped ++ lexeme ++ rest) (token :: tokens)

/-! ### Matches at the start of a text -/

/-- Whether a match begins with the first character of a text. -/
def BeginsLexeme (s : List Char) : Prop :=
  ∃ lexeme back token, s = lexeme ++ back ∧ IsLexeme lexeme token

theorem IsLexeme.ne_nil {lexeme : List Char} {token : Token} (h : IsLexeme lexeme token) :
    lexeme ≠ [] := by
  cases h with
  | bracket _ => simp
  | word hne _ => exact hne
  | quoted _ => simp

/-- A bracket begins no other match than itself. -/
theorem IsLexeme.of_bracket {c : Char} {s lexeme back : List Char} {bracket token : Token}
    (hc : ofBracket? c = some bracket) (hs : c :: s = lexeme ++ back) (h : IsLexeme lexeme token) :
    lexeme = [c] := by
  cases h with
  | bracket _ =>
    rw [List.singleton_append, List.cons.injEq] at hs
    rw [hs.1]
  | word hne hw =>
    cases lexeme with
    | nil => exact absurd rfl hne
    | cons d w =>
      rw [List.cons_append, List.cons.injEq] at hs
      have hnone := ofBracket?_eq_none_of_isWordChar (hw d (by simp))
      rw [← hs.1, hc] at hnone
      exact absurd hnone (by simp)
  | quoted _ =>
    rw [List.cons_append, List.cons_append, List.cons.injEq] at hs
    rw [hs.1, ofBracket?_quote] at hc
    exact absurd hc (by simp)

/-- A match that begins with a word character is a part of the word that stands there. -/
theorem IsLexeme.of_word {c : Char} {w s lexeme back : List Char} {token : Token}
    (hw : ∀ d ∈ c :: w, isWordChar d) (hend : ∀ d ∈ s.head?, isWordChar d = false)
    (hs : c :: w ++ s = lexeme ++ back) (h : IsLexeme lexeme token) :
    lexeme.length ≤ (c :: w).length := by
  have hc : isWordChar c := hw c (by simp)
  cases h with
  | bracket hbracket =>
    rw [List.singleton_append, List.cons_append, List.cons.injEq] at hs
    rw [← hs.1, ofBracket?_eq_none_of_isWordChar hc] at hbracket
    exact absurd hbracket (by simp)
  | word hne hlexeme =>
    have htake : (lexeme ++ back).takeWhile isWordChar = c :: w := by
      rw [← hs]
      exact (span_append hw hend).1
    rw [List.takeWhile_append_of_pos hlexeme] at htake
    rw [← htake]
    simp
  | quoted _ =>
    rw [List.cons_append, List.cons_append, List.cons_append, List.cons.injEq] at hs
    rw [hs.1] at hc
    exact absurd hc (by decide)

/-- A match that begins with a quotation mark is the literal that stands there. -/
theorem IsLexeme.of_quote {s lexeme back : List Char} {token : Token}
    (hs : '"' :: s = lexeme ++ back) (h : IsLexeme lexeme token) :
    ∃ content, Text.Quoted.read? s = some (content, back) ∧ lexeme = '"' :: content ++ ['"'] := by
  cases h with
  | bracket hbracket =>
    rw [List.singleton_append, List.cons.injEq] at hs
    rw [← hs.1, ofBracket?_quote] at hbracket
    exact absurd hbracket (by simp)
  | word hne hw =>
    cases lexeme with
    | nil => exact absurd rfl hne
    | cons d w =>
      rw [List.cons_append, List.cons.injEq] at hs
      have hd := hw d (by simp)
      rw [← hs.1] at hd
      exact absurd hd (by decide)
  | @quoted content hcontent =>
    simp only [List.cons_append, List.append_assoc, List.nil_append, List.cons.injEq,
      true_and] at hs
    exact ⟨content, Text.Quoted.read?_eq_some_iff.mpr ⟨hcontent, hs⟩, by simp⟩

/-- A mark without a literal begins no match. -/
theorem not_beginsLexeme_of_unclosed {s : List Char} (h : Text.Quoted.read? s = none) :
    ¬ BeginsLexeme ('"' :: s) := by
  rintro ⟨lexeme, back, token, hs, hlexeme⟩
  obtain ⟨content, hread, -⟩ := hlexeme.of_quote hs
  rw [h] at hread
  exact absurd hread (by simp)

/-- What is no bracket, no character of words and no mark begins no match. -/
theorem not_beginsLexeme_of_skip {c : Char} {s : List Char} (hc : ofBracket? c = none)
    (hw : isWordChar c = false) (hq : c ≠ '"') : ¬ BeginsLexeme (c :: s) := by
  rintro ⟨lexeme, back, token, hs, hlexeme⟩
  cases hlexeme with
  | bracket hbracket =>
    rw [List.singleton_append, List.cons.injEq] at hs
    rw [← hs.1, hc] at hbracket
    exact absurd hbracket (by simp)
  | word hne hword =>
    cases lexeme with
    | nil => exact absurd rfl hne
    | cons d w =>
      rw [List.cons_append, List.cons.injEq] at hs
      have hd := hword d (by simp)
      rw [← hs.1, hw] at hd
      exact absurd hd (by simp)
  | quoted _ =>
    rw [List.cons_append, List.cons_append, List.cons.injEq] at hs
    exact hq hs.1

/-- A character that begins no match is skipped. -/
theorem scan_cons_of_not_beginsLexeme {c : Char} {s : List Char} (h : ¬ BeginsLexeme (c :: s)) :
    scan (c :: s) = scan s := by
  cases hc : ofBracket? c with
  | some token => exact absurd ⟨[c], s, token, rfl, .bracket hc⟩ h
  | none =>
    by_cases hw : isWordChar c
    · exact absurd ⟨[c], s, _, rfl, .word (by simp) (by simpa using hw)⟩ h
    · by_cases hq : c = '"'
      · subst hq
        cases hread : Text.Quoted.read? s with
        | none => exact scan_unclosed hread
        | some r =>
          obtain ⟨hcontent, hs⟩ := Text.Quoted.read?_eq_some_iff.mp hread
          exact absurd ⟨_, r.2, _, by simp [hs], .quoted hcontent⟩ h
      · exact scan_skip hc (by simpa using hw) hq s

/-- The longest match at the start of a text is its first token. -/
theorem scan_lexeme {lexeme rest : List Char} {token : Token} (h : IsLexeme lexeme token)
    (hlongest : ∀ other back token', lexeme ++ rest = other ++ back → IsLexeme other token' →
      other.length ≤ lexeme.length) :
    scan (lexeme ++ rest) = token :: scan rest := by
  cases h with
  | bracket hc => exact scan_bracket hc rest
  | word hne hw =>
    refine scan_append_word hne hw fun d hd => ?_
    -- a longer word would be a longer match
    cases hd' : isWordChar d with
    | false => rfl
    | true =>
      obtain ⟨back, rfl⟩ : ∃ back, rest = d :: back := by
        cases rest with
        | nil => simp at hd
        | cons e back => exact ⟨back, by simp_all⟩
      have hlonger := hlongest (lexeme ++ [d]) back _ (by simp)
        (.word (by simp) fun e he => (List.mem_append.mp he).elim (hw e) (by simp_all))
      simp only [List.length_append, List.length_singleton] at hlonger
      omega
  | @quoted content hcontent =>
    have hread : Text.Quoted.read? (content ++ '"' :: rest) = some (content, rest) :=
      Text.Quoted.read?_eq_some_iff.mpr ⟨hcontent, rfl⟩
    simpa using scan_quoted hread

/-! ### All matches -/

theorem Extracts.scan_eq {s : List Char} {tokens : List Token} (h : Extracts s tokens) :
    scan s = tokens := by
  induction h with
  | @done s hnone =>
    -- nothing begins a match, so that everything is skipped
    induction s with
    | nil => simp
    | cons c s ih =>
      have hskip : ¬ BeginsLexeme (c :: s) := by
        rintro ⟨lexeme, back, token, hs, hlexeme⟩
        exact hnone [] lexeme back token hs hlexeme
      rw [scan_cons_of_not_beginsLexeme hskip]
      refine ih fun front lexeme back token hs => hnone (c :: front) lexeme back token ?_
      rw [hs]
      rfl
  | @next skipped lexeme rest token tokens hlexeme hleftmost hlongest _ ih =>
    rw [← ih, ← scan_lexeme hlexeme hlongest]
    clear ih
    -- a match that began in what is skipped would stand to the left of the first one
    induction skipped with
    | nil => rfl
    | cons c skipped ihs =>
      have hskip : ¬ BeginsLexeme (c :: skipped ++ lexeme ++ rest) := by
        rintro ⟨other, back, token', hs, hother⟩
        have hle := hleftmost [] other back token' hs hother
        simp at hle
      have hstep : scan (c :: skipped ++ lexeme ++ rest) = scan (skipped ++ lexeme ++ rest) :=
        scan_cons_of_not_beginsLexeme hskip
      rw [hstep]
      refine ihs fun front other back token' hs hother => ?_
      have hle := hleftmost (c :: front) other back token'
        (by rw [List.cons_append, List.cons_append, hs]; rfl) hother
      simpa using hle

/-- Matches are taken off a text no matter what stands in front of it, if no match begins there. -/
theorem Extracts.cons {c : Char} {s : List Char} {tokens : List Token}
    (hc : ¬ BeginsLexeme (c :: s)) (h : Extracts s tokens) : Extracts (c :: s) tokens := by
  -- a match in the longer text begins behind its first character
  have hbehind : ∀ front lexeme back token, c :: s = front ++ lexeme ++ back →
      IsLexeme lexeme token → ∃ front', front = c :: front' ∧ s = front' ++ lexeme ++ back := by
    intro front lexeme back token hs hlexeme
    cases front with
    | nil => exact absurd ⟨lexeme, back, token, hs, hlexeme⟩ hc
    | cons d front =>
      simp only [List.cons_append, List.cons.injEq] at hs
      exact ⟨front, by rw [hs.1], hs.2⟩
  cases h with
  | done hnone =>
    refine .done fun front lexeme back token hs hlexeme => ?_
    obtain ⟨front', -, hs'⟩ := hbehind front lexeme back token hs hlexeme
    exact hnone front' lexeme back token hs' hlexeme
  | @next skipped lexeme rest token tokens hlexeme hleftmost hlongest hrest =>
    refine @Extracts.next (c :: skipped) lexeme rest token tokens hlexeme ?_ hlongest hrest
    intro front other back token' hs hother
    obtain ⟨front', rfl, hs'⟩ := hbehind front other back token' hs hother
    simpa using hleftmost front' other back token' hs' hother

/-- The longest match at the start of a text is the first one. -/
theorem Extracts.first {lexeme rest : List Char} {token : Token} {tokens : List Token}
    (hlexeme : IsLexeme lexeme token)
    (hlongest : ∀ other back token', lexeme ++ rest = other ++ back → IsLexeme other token' →
      other.length ≤ lexeme.length)
    (hrest : Extracts rest tokens) : Extracts (lexeme ++ rest) (token :: tokens) :=
  @Extracts.next [] lexeme rest token tokens hlexeme (fun _ _ _ _ _ _ => Nat.zero_le _) hlongest
    hrest

theorem extracts_scan (s : List Char) : Extracts s (scan s) := by
  induction s using scan_induction with
  | nil =>
    rw [scan_nil]
    refine .done fun front lexeme back token hs hlexeme => hlexeme.ne_nil ?_
    simp_all
  | bracket s hc ih =>
    rw [scan_bracket hc]
    refine .first (.bracket hc) ?_ ih
    intro other back token' hs hother
    exact Nat.le_of_eq (congrArg List.length (hother.of_bracket hc hs))
  | @word w s hne hw hs ih =>
    rw [scan_append_word hne hw hs]
    refine .first (.word hne hw) ?_ ih
    intro other back token' hother hlexeme
    cases w with
    | nil => exact absurd rfl hne
    | cons c w => exact hlexeme.of_word hw hs hother
  | @quoted s content rest hread ih =>
    obtain ⟨hcontent, rfl⟩ := Text.Quoted.read?_eq_some_iff.mp hread
    have hnext := Extracts.first (.quoted hcontent) ?_ ih
    · rw [scan_quoted hread]
      simpa using hnext
    · intro other back token' hs hother
      obtain ⟨content', hread', rfl⟩ := hother.of_quote (by simpa using hs)
      rw [hread, Option.some.injEq, Prod.mk.injEq] at hread'
      exact Nat.le_of_eq (by rw [hread'.1])
  | @unclosed s hread ih =>
    rw [scan_unclosed hread]
    exact ih.cons (not_beginsLexeme_of_unclosed hread)
  | skip s hc hw hq ih =>
    rw [scan_skip hc hw hq]
    exact ih.cons (not_beginsLexeme_of_skip hc hw hq)

/-- The tokens of a text are the matches of the pattern in it. -/
theorem extracts_iff {s : List Char} {tokens : List Token} :
    Extracts s tokens ↔ tokens = scan s := by
  constructor
  · exact fun h => h.scan_eq.symm
  · rintro rfl
    exact extracts_scan s

/-! ### What the padding changes -/

/-- A literal as it is taken off a text, with the padding or without it, where `before` stands in
front of its opening mark. The padding changes it if it stands behind an even number of free marks,
its own among them, and has brackets that are not set apart. -/
theorem respace_spacer_eq_iff {before : List Char} {content : String}
    (h : Text.Quoted.IsContent content.toList) :
    (quoted content).respace spacer (spacer.after spacer.start before) =
        (quoted content).respace Text.collapser (Text.collapser.after false before) ↔
      (freeMarks (before ++ ['"']) % 2 = 0 → setApart content.toList) := by
  -- the state of the padding behind the opening mark is the parity of the free marks so far
  have hbefore : padder.next (spacer.after spacer.start before).1 '"' =
      padder.after padder.start (before ++ ['"']) := by
    have hfirst : (spacer.after spacer.start before).1 = padder.after padder.start before :=
      after_spacer_fst spacer.start before
    rw [hfirst, Transducer.after_append]
    rfl
  have hinside : (padder.after padder.start (before ++ ['"'])).inLiteral =
      decide (freeMarks (before ++ ['"']) % 2 = 1) := by
    rw [after_padder, freeMarks]
    exact Bool.false_xor _
  have hcollapsed : (quoted content).respace Text.collapser (Text.collapser.after false before) =
      quoted (String.ofList (Text.collapse content.toList)) := rfl
  rw [respace_spacer _ h, hbefore, hinside, hcollapsed, quoted.injEq, String.ofList_inj]
  rcases Nat.mod_two_eq_zero_or_one (freeMarks (before ++ ['"'])) with hmarks | hmarks
  · simpa [hmarks] using collapse_padder_eq_iff h
  · simp [hmarks]

/-- The tokens of a filter are the matches of the pattern in its unpadded text if and only if every
literal which the padding takes for text has its brackets set apart already. -/
theorem tokenize_extracts_iff (filter : String) :
    Extracts (Text.trim (Text.collapse filter.toList)) (tokenize filter) ↔
      ∀ before content, (before, .quoted content) ∈ locate [] filter.toList →
        freeMarks (before ++ ['"']) % 2 = 0 → setApart content.toList := by
  have hunpadded : scan (Text.trim (Text.collapse filter.toList)) =
      (locate [] filter.toList).map fun place =>
        place.2.respace Text.collapser (Text.collapser.after false place.1) := by
    rw [scan_trim]
    exact scan_writeFrom Transducer.isSpacer_collapser false [] filter.toList
  rw [extracts_iff, tokenize_eq_map, hunpadded, List.map_inj_left]
  constructor
  · intro h before content hmem
    exact (respace_spacer_eq_iff (wellFormed_of_mem_locate hmem)).mp (h _ hmem)
  · rintro h ⟨before, token⟩ hmem
    cases token with
    | quoted content =>
      exact (respace_spacer_eq_iff (wellFormed_of_mem_locate hmem)).mpr (h before content hmem)
    | opening _ => rfl
    | closing _ => rfl
    | word _ => rfl

/-- The pair of backslashes ends the first literal, but not for the padding, which takes the second
literal for text. -/
theorem not_extracts_behind_backslashes :
    tokenize "a eq \"x\\\\\" and b eq \"(y)\"" =
        [.word "a", .word "eq", .quoted "x\\\\", .word "and", .word "b", .word "eq",
          .quoted " ( y ) "] ∧
      ¬ Extracts (Text.trim (Text.collapse "a eq \"x\\\\\" and b eq \"(y)\"".toList))
        (tokenize "a eq \"x\\\\\" and b eq \"(y)\"") := by
  rw [extracts_iff]
  decide +kernel

end Token

end ScimQuery
