import ScimQuery.Proofs.Lexing.Spacing

/-!
# What the padding of brackets changes

Brackets are set apart so that they are tokens of their own, and those in literals are to stay as
they are. The padding takes every quotation mark for the end of a literal that does not stand right
behind a backslash. Such marks are `freeMarks`. A literal that ends in a pair of backslashes is
therefore closed for the scanner and not for the padding, and from there on the padding takes
literals for text and text for literals, until another such literal comes.

What that does to a literal is `respace_spacer`. It does no harm to one whose brackets stand between
white space already (`collapse_padder_eq_iff`).
-/

namespace ScimQuery

namespace Token

/-! ### Marks that the padding counts -/

/-- The number of quotation marks that do not stand right behind a backslash, in a text whose first
character does or does not stand behind one. -/
def freeMarksFrom (afterBackslash : Bool) : List Char → Nat
  | [] => 0
  | c :: s => (if c = '"' ∧ afterBackslash = false then 1 else 0) + freeMarksFrom (c == '\\') s

/-- The number of quotation marks that do not stand right behind a backslash. -/
def freeMarks (s : List Char) : Nat := freeMarksFrom false s

theorem freeMarksFrom_content {s : List Char} (h : Text.Quoted.IsContent s) (b : Bool) :
    freeMarksFrom b s = 0 := by
  induction h generalizing b with
  | nil => rfl
  | plain hq _ _ ih => simp [freeMarksFrom, hq, ih]
  | pair c _ ih => simp [freeMarksFrom, ih]

section State

variable {q : PadState} {c : Char} {s : List Char}

/-- A free mark opens or closes what the padding takes for a literal. -/
theorem inLiteral_next_of_mark (hc : c = '"' ∧ q.afterBackslash = false) :
    (padder.next q c).inLiteral = !q.inLiteral := by
  simp [padder, hc]

/-- Nothing but a free mark opens or closes what the padding takes for a literal. -/
theorem inLiteral_next_of_not_mark (hc : ¬ (c = '"' ∧ q.afterBackslash = false)) :
    (padder.next q c).inLiteral = q.inLiteral := by
  rcases Classical.not_and_iff_not_or_not.mp hc with hc | hb
  · simp [padder, hc]
  · simp [padder, hb]

/-- A text without free marks has none behind its first character, which changes nothing. -/
theorem freeMarksFrom_cons_eq_zero (h : freeMarksFrom q.afterBackslash (c :: s) = 0) :
    (padder.next q c).inLiteral = q.inLiteral ∧
      freeMarksFrom (padder.next q c).afterBackslash s = 0 := by
  rw [freeMarksFrom, Nat.add_eq_zero_iff] at h
  refine ⟨inLiteral_next_of_not_mark fun hc => ?_, h.2⟩
  simp [hc] at h

/-- The padding is in a literal behind an odd number of free marks. -/
theorem after_padder (q : PadState) (s : List Char) :
    (padder.after q s).inLiteral =
      (q.inLiteral ^^ decide (freeMarksFrom q.afterBackslash s % 2 = 1)) := by
  induction s generalizing q with
  | nil => simp [freeMarksFrom]
  | cons c s ih =>
    rw [Transducer.after_cons, ih, freeMarksFrom]
    have hback : (padder.next q c).afterBackslash = (c == '\\') := rfl
    rw [hback]
    by_cases hmark : c = '"' ∧ q.afterBackslash = false
    · have hparity : decide ((1 + freeMarksFrom (c == '\\') s) % 2 = 1) =
          !decide (freeMarksFrom (c == '\\') s % 2 = 1) := by
        rw [← decide_not]
        congr 1
        rw [eq_iff_iff]
        omega
      rw [if_pos hmark, inLiteral_next_of_mark hmark, hparity, Bool.not_xor, Bool.xor_not]
    · rw [if_neg hmark, inLiteral_next_of_not_mark hmark, Nat.zero_add]

/-- Nothing is padded in what the padding takes for a literal. -/
theorem padder_writeFrom_eq_self (hq : q.inLiteral = true)
    (h : freeMarksFrom q.afterBackslash s = 0) : padder.writeFrom q s = s := by
  induction s generalizing q with
  | nil => rfl
  | cons c s ih =>
    obtain ⟨hnext, hrest⟩ := freeMarksFrom_cons_eq_zero h
    rw [Transducer.writeFrom_cons, ih (hnext.trans hq) hrest]
    simp [padder, hq]

end State

/-! ### Brackets between white space -/

/-- Whether every bracket in a text has white space right before and right behind it, where the text
itself does or does not stand behind white space. -/
def setApartFrom (afterBlank : Bool) : List Char → Bool
  | [] => true
  | c :: s =>
    ((ofBracket? c).isNone || afterBlank && s.head?.any Text.isBlank) &&
      setApartFrom (Text.isBlank c) s

/-- Whether every bracket in a text has white space right before and right behind it. -/
def setApart (s : List Char) : Bool := setApartFrom false s

section Collapse

open Text (collapser collapser_blank collapser_other isBlank isBlank_space)

/-- A text begins with the space that is written behind a bracket only if it begins with white
space. -/
theorem collapse_space_eq_iff {q : PadState} {s : List Char} {p : Bool}
    (ih : collapser.writeFrom false (padder.writeFrom q s) = collapser.writeFrom false s ↔
      p = true) :
    ' ' :: collapser.writeFrom true (padder.writeFrom q s) = collapser.writeFrom false s ↔
      (s.head?.any isBlank && p) = true := by
  cases s with
  | nil => simp [padder, collapser]
  | cons d s =>
    by_cases hd : isBlank d
    · have hemit : padder.emit q d = [d] := by simp [padder, ofBracket?_eq_none_of_isBlank hd]
      rw [Transducer.writeFrom_cons, hemit, List.singleton_append, collapser_blank hd,
        collapser_blank hd] at ih ⊢
      simpa [hd] using ih
    · rw [Bool.not_eq_true] at hd
      rw [collapser_other hd]
      have hne : ' ' ≠ d := by
        rintro rfl
        exact absurd hd (by decide)
      simp [hd, hne]

/-- Padding brackets outside literals leaves a text as it is, up to the amount of white space, if
and only if they have been set apart. -/
theorem collapse_padded_eq_iff {q : PadState} {s : List Char} (b : Bool) (hq : q.inLiteral = false)
    (h : freeMarksFrom q.afterBackslash s = 0) :
    collapser.writeFrom b (padder.writeFrom q s) = collapser.writeFrom b s ↔
      setApartFrom b s = true := by
  induction s generalizing q b with
  | nil => simp [setApartFrom, padder]
  | cons c s ih =>
    obtain ⟨hnext, hrest⟩ := freeMarksFrom_cons_eq_zero h
    have ih' := fun b => ih (q := padder.next q c) b (hnext.trans hq) hrest
    rw [Transducer.writeFrom_cons, setApartFrom]
    cases hbracket : ofBracket? c with
    | none =>
      have hemit : padder.emit q c = [c] := by simp [padder, hbracket]
      rw [hemit, List.singleton_append]
      by_cases hc : isBlank c
      · rw [collapser_blank hc, collapser_blank hc, List.append_cancel_left_eq, ih' true, hc]
        simp
      · rw [Bool.not_eq_true] at hc
        rw [collapser_other hc, collapser_other hc, List.cons.injEq, ih' false, hc]
        simp
    | some token =>
      have hc := isBlank_eq_false_of_ofBracket? hbracket
      have hemit : padder.emit q c = [' ', c, ' '] := by simp [padder, hq, hbracket]
      rw [hemit, List.cons_append, collapser_blank isBlank_space, List.cons_append,
        collapser_other hc, collapser_other hc, List.singleton_append,
        collapser_blank isBlank_space]
      cases b with
      | false =>
        -- the space in front is new
        simpa using fun h : ' ' = c => by simp [← h, isBlank_space] at hc
      | true =>
        -- the one behind is new unless there is white space already
        have hrest := collapse_space_eq_iff (ih' false)
        simpa [hc] using hrest

end Collapse

/-! ### What is left of a literal -/

theorem collapse_padder_eq_iff {s : List Char} (h : Text.Quoted.IsContent s) :
    Text.collapse (padder.write s) = Text.collapse s ↔ setApart s :=
  collapse_padded_eq_iff false rfl (freeMarksFrom_content h false)

/-- The content of a literal after both passes. Its brackets have been set apart unless the padding
has taken the opening mark for one. -/
theorem respace_spacer (q : PadState × Bool) {content : String}
    (h : Text.Quoted.IsContent content.toList) :
    (quoted content).respace spacer q =
      quoted (String.ofList (Text.collapse
        (if (padder.next q.1 '"').inLiteral then content.toList
        else padder.write content.toList))) := by
  have hstate : spacer.next q '"' = (padder.next q.1 '"', false) := by
    show (padder.next q.1 '"', Text.collapser.after q.2 (padder.emit q.1 '"')) = _
    rw [Transducer.isSpacer_padder.emit_quote]
    rfl
  have hmarks : freeMarksFrom (padder.next q.1 '"').afterBackslash content.toList = 0 :=
    freeMarksFrom_content h _
  rw [respace, hstate, spacer, Transducer.followedBy_writeFrom Transducer.isSpacer_padder.finish_eq
    Transducer.isSpacer_collapser.finish_eq]
  congr 3
  split
  · rename_i hinside
    exact padder_writeFrom_eq_self hinside hmarks
  · rename_i houtside
    -- a mark leaves the padding outside literals just as it starts
    have hstart : padder.next q.1 '"' = padder.start := by
      rw [Bool.not_eq_true] at houtside
      exact congrArg (PadState.mk · false) houtside
    rw [hstart]
    rfl

/-! ### Tokens of a filter -/

/-- Whether a token is as tokenizing leaves it: well formed, and without runs of white space. -/
structure Settled (token : Token) : Prop where
  wellFormed : token.WellFormed
  collapse_eq : ∀ content, token = .quoted content →
    Text.collapse content.toList = content.toList

theorem settled_opening (b : Bracket) : (opening b).Settled := ⟨trivial, by simp⟩

theorem settled_closing (b : Bracket) : (closing b).Settled := ⟨trivial, by simp⟩

theorem IsWord.settled_word {w : String} (h : IsWord w) : (word w).Settled := ⟨h, by simp⟩

/-- A word can stand in a literal. -/
theorem IsWord.settled_quoted {w : String} (h : IsWord w) : (quoted w).Settled := by
  have hcontent : ∀ s : List Char, (∀ c ∈ s, isWordChar c) → Text.Quoted.IsContent s := by
    intro s hs
    induction s with
    | nil => exact .nil
    | cons c s ih =>
      have hc := ne_of_isWordChar (hs c (by simp))
      exact .plain hc.1 hc.2 (ih fun d hd => hs d (by simp [hd]))
  refine ⟨hcontent _ h.2, ?_⟩
  rintro content hword
  cases hword
  exact Text.collapse_eq_self_iff.mpr
    (Text.singleSpaced_of_not_isBlank fun c hc => isBlank_eq_false_of_isWordChar (h.2 c hc))

theorem settled_of_mem_tokenize {filter : String} {token : Token} (h : token ∈ tokenize filter) :
    token.Settled := by
  refine ⟨wellFormed_of_mem_scan h, ?_⟩
  rintro content rfl
  rw [tokenize_eq_map, List.mem_map] at h
  obtain ⟨⟨before, token⟩, hmem, hspaced⟩ := h
  cases token with
  | quoted original =>
    -- the second pass is the one that reduces white space, and another one changes nothing more
    have hcontent := wellFormed_of_mem_locate hmem
    rw [respace_spacer _ hcontent, quoted.injEq] at hspaced
    rw [← hspaced, String.toList_ofList, Text.collapse_collapse]
  | opening _ => exact absurd hspaced (by simp [respace])
  | closing _ => exact absurd hspaced (by simp [respace])
  | word _ => exact absurd hspaced (by simp [respace])

end Token

end ScimQuery
