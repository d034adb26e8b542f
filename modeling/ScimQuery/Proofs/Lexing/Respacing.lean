import ScimQuery.Filter.Parser
import ScimQuery.Proofs.Lexing.Places

/-!
# Texts that differ in how they are spaced

The tokens of a text depend neither on how much white space there is between its other characters
nor on which white space it is. This holds of the literals too, whose white space is reduced along
with that of the rest, and of brackets that the padding takes to be in a literal, since padding
looks at white space in no way but to tell that it is no backslash.

Around a bracket that is a token white space makes no difference even where there was none before:
putting it there is one more spacer (`isSpacer_inserter`), which does not reach into a literal. It
does not matter in which text the bracket is a token, in the one that tokens are taken from or in
the one that is given (`mem_locate_of_prepare`).
-/

namespace ScimQuery

open Text (isBlank collapse collapser collapser_blank collapser_other trim visible)

/-! ### Visible characters -/

theorem Text.length_le_of_visible_eq {u v s : List Char} {c : Char} (hu : u ++ [c] <+: s)
    (hv : v <+: s) (hc : isBlank c = false) (h : visible u = visible v) : v.length ≤ u.length := by
  by_contra hlt
  have hlength : (u ++ [c]).length ≤ v.length := by
    rw [List.length_append, List.length_singleton]
    omega
  obtain ⟨w, rfl⟩ := List.prefix_of_prefix_length_le hu hv hlength
  simp [hc] at h

/-- The visible characters in front of a visible character tell where it stands. -/
theorem Text.eq_of_visible_eq {u v s : List Char} {c d : Char} (hu : u ++ [c] <+: s)
    (hv : v ++ [d] <+: s) (hc : isBlank c = false) (hd : isBlank d = false)
    (h : visible u = visible v) : u = v := by
  have hu' : u <+: s := (List.prefix_append u [c]).trans hu
  have hv' : v <+: s := (List.prefix_append v [d]).trans hv
  have hle : u.length ≤ v.length := length_le_of_visible_eq hv hu' hd h.symm
  have hge : v.length ≤ u.length := length_le_of_visible_eq hu hv' hc h
  exact (List.prefix_of_prefix_length_le hu' hv' hle).eq_of_length_le hge

namespace Token

/-! ### What the spacing depends on -/

theorem padder_blank (q : PadState) {c : Char} (hc : isBlank c) :
    padder.next q c = ⟨q.inLiteral, false⟩ ∧ padder.emit q c = [c] := by
  simp [padder, ne_of_isBlank hc, ofBracket?_eq_none_of_isBlank hc]

/-- A literal is left in the same way if the padding has seen the same. -/
theorem respace_spacer_congr {q q' : PadState × Bool} (hq : q.1 = q'.1) {token : Token}
    (h : token.WellFormed) : token.respace spacer q = token.respace spacer q' := by
  cases token with
  | quoted content => rw [respace_spacer q h, respace_spacer q' h, hq]
  | _ => rfl

theorem scan_spacer_congr {q q' : PadState × Bool} (hq : q.1 = q'.1) (s : List Char) :
    scan (spacer.writeFrom q s) = scan (spacer.writeFrom q' s) := by
  have hspaced := fun q => scan_writeFrom isSpacer_spacer q [] s
  simp only [Transducer.after_nil] at hspaced
  rw [hspaced q, hspaced q']
  refine List.map_congr_left fun place hplace => respace_spacer_congr ?_ ?_
  · rw [after_spacer_fst, after_spacer_fst, hq]
  · exact wellFormed_of_mem_locate hplace

/-! ### The amount of white space -/

/-- White space that is reduced before the padding leaves nothing more to reduce behind it. -/
theorem collapser_padder_collapser {q : PadState} {b b' : Bool} (s : List Char)
    (h : b' = true → b = true ∧ q.afterBackslash = false) :
    collapser.writeFrom b (padder.writeFrom q (collapser.writeFrom b' s)) =
      collapser.writeFrom b (padder.writeFrom q s) := by
  induction s generalizing q b b' with
  | nil => rfl
  | cons c s ih =>
    by_cases hc : isBlank c
    · obtain ⟨hnext, hemit⟩ := padder_blank q hc
      have hbehind : collapser.writeFrom true
            (padder.writeFrom ⟨q.inLiteral, false⟩ (collapser.writeFrom true s)) =
          collapser.writeFrom true (padder.writeFrom ⟨q.inLiteral, false⟩ s) := ih (by simp)
      rw [collapser_blank hc, Transducer.writeFrom_cons padder q c s, hnext, hemit,
        List.singleton_append, collapser_blank hc, ← hbehind]
      cases b' with
      | false =>
        obtain ⟨hnext', hemit'⟩ := padder_blank q Text.isBlank_space
        rw [if_neg Bool.false_ne_true, List.singleton_append, Transducer.writeFrom_cons, hnext',
          hemit', List.singleton_append, collapser_blank Text.isBlank_space]
      | true =>
        -- the padding has just seen white space, so that its state stays as it is
        obtain ⟨rfl, hq⟩ := h rfl
        have hsame : q = ⟨q.inLiteral, false⟩ := congrArg (PadState.mk q.inLiteral) hq
        simp [← hsame]
    · rw [Bool.not_eq_true] at hc
      have hfinish := Transducer.isSpacer_collapser.finish_eq
      rw [collapser_other hc, Transducer.writeFrom_cons, Transducer.writeFrom_cons,
        Transducer.writeFrom_append hfinish, Transducer.writeFrom_append hfinish,
        ih fun h => absurd h Bool.false_ne_true]

theorem prepare_collapse (s : List Char) : prepare (collapse s) = prepare s :=
  congrArg trim (collapser_padder_collapser s fun h => absurd h Bool.false_ne_true)

theorem tokenize_trim (s : List Char) :
    tokenize (String.ofList (trim s)) = tokenize (String.ofList s) := by
  obtain ⟨front, back, hs, hfront, hback⟩ := Text.exists_eq_append_trim s
  have hstate : (spacer.after spacer.start front).1 = spacer.start.1 := by
    rw [after_spacer_fst]
    exact after_padder_of_passive rfl fun c hc => ne_of_isBlank (hfront c hc)
  have hblanks := isSpacer_spacer.writeFrom_blanks
  rw [tokenize_eq, tokenize_eq, String.toList_ofList, String.toList_ofList]
  symm
  calc scan (spacer.write s)
    _ = scan (spacer.writeFrom spacer.start (front ++ (trim s ++ back))) := by rw [← hs]; rfl
    _ = scan (spacer.writeFrom (spacer.after spacer.start front) (trim s ++ back)) := by
      rw [Transducer.writeFrom_append isSpacer_spacer.finish_eq, scan_blanks (hblanks _ hfront)]
    _ = scan (spacer.writeFrom spacer.start (trim s ++ back)) := scan_spacer_congr hstate _
    _ = scan (spacer.writeFrom spacer.start (trim s)) := by
      rw [Transducer.writeFrom_append isSpacer_spacer.finish_eq,
        scan_append_blanks _ (hblanks _ hback)]

/-- The tokens of a text are those of the text with its white space reduced. -/
theorem tokenize_trim_collapse (filter : String) :
    tokenize (String.ofList (trim (collapse filter.toList))) = tokenize filter := by
  rw [tokenize_trim, tokenize, String.toList_ofList, prepare_collapse, tokenize]

/-! ### Where a bracket is found again -/

/-- The tokens that are taken off the text stand behind the same visible characters in it. -/
theorem map_locate_prepare (s : List Char) :
    (locate [] (prepare s)).map (Prod.map visible id) =
      (locate [] s).map fun place =>
        (visible place.1, place.2.respace spacer (spacer.after spacer.start place.1)) := by
  obtain ⟨front, back, hs, hfront, hback⟩ := Text.exists_eq_append_trim (spacer.write s)
  have htrim : locate [] (spacer.write s) =
      (locate [] (prepare s)).map (Prod.map (front ++ ·) id) := by
    rw [prepare_eq, ← locate_append, List.append_nil]
    conv => lhs; rw [hs]
    rw [locate_blanks [] hfront, locate_append_blanks _ _ hback, List.nil_append]
  have hspaced := locate_writeFrom isSpacer_spacer spacer.start [] [] rfl s
  rw [Transducer.after_nil, ← Transducer.write, htrim, List.map_map] at hspaced
  rw [← hspaced]
  refine List.map_congr_left fun place _ => Prod.ext ?_ rfl
  simp [Text.visible_eq_nil hfront]

/-- A bracket that is a token of the text that tokens are taken from is one of the text itself. -/
theorem mem_locate_of_prepare {before place behind : List Char} {c : Char} {token : Token}
    (hc : ofBracket? c = some token)
    (hplace : (place, token) ∈ locate [] (prepare (before ++ c :: behind)))
    (hvisible : visible place = visible before) :
    (before, token) ∈ locate [] (before ++ c :: behind) := by
  have hmem := List.mem_map_of_mem (f := Prod.map visible id) hplace
  rw [map_locate_prepare, List.mem_map] at hmem
  obtain ⟨⟨before', token'⟩, hplace', heq⟩ := hmem
  obtain ⟨hbefore', htoken'⟩ := Prod.mk.inj heq
  obtain rfl : token' = token := by
    cases token' with
    | quoted content =>
      obtain rfl : quoted _ = token := htoken'
      exact absurd hc (ofBracket?_ne_quoted c _)
    | _ => exact htoken'
  have hstands := (prefix_of_mem_locate hplace').2
  rw [toList_text_of_ofBracket? hc, List.nil_append] at hstands
  have hblank := isBlank_eq_false_of_ofBracket? hc
  obtain rfl : before' = before :=
    Text.eq_of_visible_eq hstands (by simp) hblank hblank (hbefore'.trans hvisible)
  exact hplace'

/-! ### White space around a bracket -/

/-- Writes white space in front of the bracket at a place and behind it. The state counts the
characters. -/
def inserter (place : Nat) (front back : List Char) : Transducer Nat where
  start := 0
  next n _ := n + 1
  emit n c := if n = place ∧ (ofBracket? c).isSome then front ++ c :: back else [c]

section Insert

variable {place : Nat} {front back : List Char}

theorem isSpacer_inserter (hfront : ∀ c ∈ front, isBlank c) (hback : ∀ c ∈ back, isBlank c) :
    (inserter place front back).IsSpacer where
  finish_eq _ := rfl
  emit_blank n c hc d hd := by
    have hbracket := ofBracket?_eq_none_of_isBlank hc
    simp only [inserter, hbracket, Option.isSome_none, Bool.false_eq_true, and_false, if_false,
      List.mem_singleton] at hd
    exact hd ▸ hc
  emit_bracket n c hc := by
    by_cases hn : n = place
    · exact ⟨front, back, by simp [inserter, hn, hc], hfront, hback⟩
    · exact ⟨[], [], by simp [inserter, hn], by simp, by simp⟩
  emit_other n c _ hc := by simp [inserter, hc]
  emit_ne_nil n c d _ _ := by
    simp only [inserter]
    split <;> simp

theorem after_inserter (n : Nat) (s : List Char) :
    (inserter place front back).after n s = n + s.length := by
  induction s generalizing n with
  | nil => rfl
  | cons c s ih =>
    have hnext : (inserter place front back).next n c = n + 1 := rfl
    rw [Transducer.after_cons, hnext, ih, List.length_cons]
    omega

/-- Nothing is put into a text in which the place is not. -/
theorem inserter_writeFrom_eq_self {n : Nat} {s : List Char}
    (h : place < n ∨ n + s.length ≤ place) : (inserter place front back).writeFrom n s = s := by
  induction s generalizing n with
  | nil => rfl
  | cons c s ih =>
    rw [List.length_cons] at h
    have hemit : (inserter place front back).emit n c = [c] := if_neg fun hn => by omega
    have hnext : (inserter place front back).next n c = n + 1 := rfl
    rw [Transducer.writeFrom_cons, hemit, hnext, ih (by omega), List.singleton_append]

theorem inserter_write {before behind : List Char} {c : Char} {token : Token}
    (hc : ofBracket? c = some token) :
    (inserter before.length front back).write (before ++ c :: behind) =
      before ++ front ++ c :: (back ++ behind) := by
  have hstart : (inserter before.length front back).start = 0 := rfl
  have hemit : (inserter before.length front back).emit before.length c = front ++ c :: back :=
    if_pos ⟨rfl, by rw [hc]; rfl⟩
  have hnext : (inserter before.length front back).next before.length c = before.length + 1 := rfl
  rw [Transducer.write, hstart, Transducer.writeFrom_append fun _ => rfl, after_inserter,
    Nat.zero_add, Transducer.writeFrom_cons, hemit, hnext,
    inserter_writeFrom_eq_self (.inr (Nat.le_of_eq (Nat.zero_add _))),
    inserter_writeFrom_eq_self (.inl (Nat.lt_succ_self _))]
  simp

/-- The padding sees no difference behind the bracket. -/
theorem after_padder_inserter (hfront : ∀ c ∈ front, isBlank c) (hback : ∀ c ∈ back, isBlank c)
    (q : PadState) (n : Nat) (s : List Char) :
    padder.after q ((inserter place front back).writeFrom n s) = padder.after q s := by
  induction s generalizing q n with
  | nil => rfl
  | cons c s ih =>
    rw [Transducer.writeFrom_cons, Transducer.after_append, ih, Transducer.after_cons]
    congr 1
    by_cases hn : n = place ∧ (ofBracket? c).isSome
    · -- whatever is written, it is not nothing, and it has neither marks nor backslashes
      have hpassive : ∀ d ∈ front ++ c :: back, d ≠ '"' ∧ d ≠ '\\' := by
        intro d hd
        rw [List.mem_append, List.mem_cons] at hd
        rcases hd with hd | rfl | hd
        · exact ne_of_isBlank (hfront d hd)
        · exact ne_of_ofBracket? hn.2
        · exact ne_of_isBlank (hback d hd)
      have hemit : (inserter place front back).emit n c = front ++ c :: back := if_pos hn
      obtain ⟨d, rest, hd⟩ : ∃ d rest, front ++ c :: back = d :: rest :=
        List.exists_cons_of_ne_nil (by simp)
      have hnext : padder.next q c = ⟨q.inLiteral, false⟩ :=
        after_padder_cons_of_passive (s := []) (by simpa using ne_of_ofBracket? hn.2)
      rw [hemit, hd, after_padder_cons_of_passive (hd ▸ hpassive), hnext]
    · have hemit : (inserter place front back).emit n c = [c] := if_neg hn
      rw [hemit]
      rfl

/-- The place of a bracket that is a token is in no literal. -/
theorem inserter_writeFrom_content {s before before' : List Char} {c : Char} {token : Token}
    {content : String} (hc : ofBracket? c = some token) (hplace : (before, token) ∈ locate [] s)
    (hliteral : (before', .quoted content) ∈ locate [] s) :
    (inserter before.length front back).writeFrom (before'.length + 1) content.toList =
      content.toList := by
  have hne : (before, token) ≠ (before', .quoted content) := fun heq =>
    absurd ((Prod.mk.inj heq).2 ▸ hc) (ofBracket?_ne_quoted c content)
  apply inserter_writeFrom_eq_self
  rcases apart_of_mem_locate hplace hliteral hne with hapart | hapart
  · have hlength := hapart.length_le
    rw [toList_text_of_ofBracket? hc] at hlength
    simp only [List.length_append, List.length_singleton] at hlength
    omega
  · have hlength := hapart.length_le
    rw [toList_text_quoted] at hlength
    simp only [List.length_append, List.length_cons, List.length_nil] at hlength
    omega

/-- A literal behind two passes is that of the second one, if the first leaves its content alone. -/
theorem respace_followedBy {σ τ : Type} {t : Transducer σ} {u : Transducer τ} (ht : t.IsSpacer)
    (hu : u.IsSpacer) (q : σ × τ) {content : String}
    (h : t.writeFrom (t.next q.1 '"') content.toList = content.toList) :
    (quoted content).respace (t.followedBy u) q = (quoted content).respace u q.2 := by
  have hnext : (t.followedBy u).next q '"' = (t.next q.1 '"', u.next q.2 '"') := by
    show (t.next q.1 '"', u.after q.2 (t.emit q.1 '"')) = _
    rw [ht.emit_quote]
    rfl
  rw [respace, respace, hnext, Transducer.followedBy_writeFrom ht.finish_eq hu.finish_eq, h]

/-- Every token is left as it is without the white space around the bracket. -/
theorem respace_inserter {s before before' : List Char} {c : Char} {token token' : Token}
    (hfront : ∀ c ∈ front, isBlank c) (hback : ∀ c ∈ back, isBlank c)
    (hc : ofBracket? c = some token) (hplace : (before, token) ∈ locate [] s)
    (hmem : (before', token') ∈ locate [] s) :
    token'.respace ((inserter before.length front back).followedBy spacer)
        (((inserter before.length front back).followedBy spacer).after (0, spacer.start) before') =
      token'.respace spacer (spacer.after spacer.start before') := by
  have hinserter : (inserter before.length front back).IsSpacer := isSpacer_inserter hfront hback
  have htoken : token'.WellFormed := wellFormed_of_mem_locate hmem
  cases token' with
  | quoted content =>
    have hcontent : (inserter before.length front back).writeFrom (before'.length + 1)
        content.toList = content.toList := inserter_writeFrom_content hc hplace hmem
    have hplace' := Transducer.followedBy_after (inserter before.length front back) spacer
      (0, spacer.start) before'
    rw [after_inserter, Nat.zero_add] at hplace'
    rw [respace_followedBy hinserter isSpacer_spacer _ (by rw [hplace']; exact hcontent)]
    -- what is left of a literal depends on what the padding has seen, which is no different
    refine respace_spacer_congr ?_ htoken
    rw [Transducer.followedBy_after_snd hinserter.finish_eq, after_spacer_fst, after_spacer_fst]
    exact after_padder_inserter hfront hback _ _ _
  | _ => rfl

/-- White space around a bracket that is a token leaves all tokens as they are. -/
theorem tokenize_insert {before behind : List Char} {c : Char} {token : Token}
    (hfront : ∀ c ∈ front, isBlank c) (hback : ∀ c ∈ back, isBlank c)
    (hc : ofBracket? c = some token)
    (hplace : (before, token) ∈ locate [] (before ++ c :: behind)) :
    tokenize (String.ofList (before ++ front ++ c :: (back ++ behind))) =
      tokenize (String.ofList (before ++ c :: behind)) := by
  have hinserter : (inserter before.length front back).IsSpacer := isSpacer_inserter hfront hback
  have hboth := hinserter.followedBy isSpacer_spacer
  rw [← inserter_write hc, tokenize_eq_map (String.ofList (before ++ c :: behind)), tokenize_eq,
    String.toList_ofList, String.toList_ofList]
  calc scan (spacer.write ((inserter before.length front back).write (before ++ c :: behind)))
    _ = scan (((inserter before.length front back).followedBy spacer).writeFrom (0, spacer.start)
        (before ++ c :: behind)) :=
      congrArg scan (Transducer.followedBy_writeFrom hinserter.finish_eq isSpacer_spacer.finish_eq
        (0, spacer.start) _).symm
    _ = (locate [] (before ++ c :: behind)).map fun place =>
        place.2.respace ((inserter before.length front back).followedBy spacer)
          (((inserter before.length front back).followedBy spacer).after (0, spacer.start)
            place.1) := scan_writeFrom hboth (0, spacer.start) [] _
    _ = _ := List.map_congr_left fun place hmem => respace_inserter hfront hback hc hplace hmem

end Insert

end Token

/-! ### Blank texts -/

/-- Reducing white space leaves a text blank or not. -/
theorem Text.all_isBlank_collapse (b : Bool) (s : List Char) :
    (collapser.writeFrom b s).all isBlank = s.all isBlank := by
  induction s generalizing b with
  | nil => rfl
  | cons c s ih =>
    rw [List.all_cons]
    by_cases hc : isBlank c
    · rw [collapser_blank hc, List.all_append, ih, hc]
      cases b <;> rfl
    · rw [Bool.not_eq_true] at hc
      rw [collapser_other hc, List.all_cons, hc, Bool.false_and, Bool.false_and]

theorem Text.all_isBlank_trim (s : List Char) : (trim s).all isBlank = s.all isBlank := by
  obtain ⟨front, back, hs, hfront, hback⟩ := exists_eq_append_trim s
  conv => rhs; rw [hs]
  rw [List.all_append, List.all_append, List.all_eq_true.mpr hfront, List.all_eq_true.mpr hback,
    Bool.true_and, Bool.and_true]

theorem Text.isBlankText_eq (s : String) :
    isBlankText s = (trim (collapse s.toList)).all isBlank := by
  rw [all_isBlank_trim, collapse, Transducer.write, all_isBlank_collapse, isBlankText]

/-! ### All white space -/

namespace Token

/-- Texts that are the same up to the amount and the kind of their white space have the same tokens
and are parsed alike. White space around a bracket makes no difference either if the bracket is a
token of the text that tokens are taken from, where the visible characters in front tell it from
other brackets. -/
theorem tokenize_respaced :
    (∀ s u : String, trim (collapse s.toList) = trim (collapse u.toList) →
      tokenize s = tokenize u ∧ ∀ limit, Filter.parse s limit = Filter.parse u limit) ∧
    ∀ (before front back behind place : List Char) (c : Char) (token : Token),
      (∀ d ∈ front, isBlank d) → (∀ d ∈ back, isBlank d) → ofBracket? c = some token →
      (place, token) ∈ locate [] (prepare (before ++ c :: behind)) →
      visible place = visible before →
      tokenize (String.ofList (before ++ front ++ c :: (back ++ behind))) =
        tokenize (String.ofList (before ++ c :: behind)) := by
  constructor
  · intro s u h
    have htokens : tokenize s = tokenize u := by
      rw [← tokenize_trim_collapse s, h, tokenize_trim_collapse]
    have hblank : Text.isBlankText s = Text.isBlankText u := by
      rw [Text.isBlankText_eq, h, ← Text.isBlankText_eq]
    exact ⟨htokens, fun limit => by rw [Filter.parse, Filter.parse, hblank, htokens]⟩
  · intro before front back behind place c token hfront hback hc hplace hvisible
    exact tokenize_insert hfront hback hc (mem_locate_of_prepare hc hplace hvisible)

/-- Two texts of one condition, and a bracket that the padding takes to be in a literal, with white
space around it and without. -/
theorem tokenize_respaced_behind_backslashes :
    let before := "a  eq\t\"x\\\\\"and".toList
    let behind := "b pr)".toList
    let place := "a eq \"x\\\\\"and".toList
    trim (collapse "a\teq  \"b\u3000 (c\" ".toList) = trim (collapse "a eq \"b (c\"".toList) ∧
      tokenize "a\teq  \"b\u3000 (c\" " = tokenize "a eq \"b (c\"" ∧
      Filter.parse "a\teq  \"b\u3000 (c\" " 0 = Filter.parse "a eq \"b (c\"" 0 ∧
      (place, .opening .round) ∈ locate [] (prepare (before ++ '(' :: behind)) ∧
      visible place = visible before ∧
      tokenize (String.ofList (before ++ [' '] ++ '(' :: (['\t', ' '] ++ behind))) =
        tokenize (String.ofList (before ++ '(' :: behind)) := by
  intro before behind place
  have hspaced : trim (collapse "a\teq  \"b\u3000 (c\" ".toList) =
      trim (collapse "a eq \"b (c\"".toList) := by decide +kernel
  have hplace : (place, opening .round) ∈ locate [] (prepare (before ++ '(' :: behind)) := by
    decide +kernel
  have hvisible : visible place = visible before := by decide +kernel
  have hsame := tokenize_respaced.1 _ _ hspaced
  exact ⟨hspaced, hsame.1, hsame.2 0, hplace, hvisible,
    tokenize_respaced.2 before [' '] ['\t', ' '] behind place '(' (.opening .round)
      (by simp; decide) (by simp; decide) rfl hplace hvisible⟩

end Token

end ScimQuery
