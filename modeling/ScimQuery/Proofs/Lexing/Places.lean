import Mathlib.Data.List.Pairwise
import ScimQuery.Proofs.Lexing.Rendering

/-!
# What stands outside the tokens of a text

A text is made of the texts of its tokens and of characters that are `Stray`: they can be no part of
a token, not even of one that begins with them. `token_induction` is the induction along these
parts. The places that `locate` gives for the tokens are therefore a `Layout` of the text: nothing
is lost, and nothing is taken twice. They are the only one (`Layout.eq_locate`).

A quotation mark is stray if no mark closes it. From there on no other mark is closed either
(`read?_eq_none_of_append`), so that the rest of the text has no literals and is lexed as if its
marks and backslashes were spaces.
-/

namespace ScimQuery

namespace Token

/-! ### Stray characters -/

/-- Whether a character in front of a text can be no part of a token: it is neither a bracket nor in
a word, and no mark closes it if it is a mark itself. -/
structure Stray (c : Char) (behind : List Char) : Prop where
  ofBracket?_eq_none : ofBracket? c = none
  isWordChar_eq_false : isWordChar c = false
  not_closed : c = '"' → ∀ content rest, Text.Quoted.IsContent content →
    behind ≠ content ++ '"' :: rest

theorem Stray.of_ne_quote {c : Char} (hc : ofBracket? c = none) (hw : isWordChar c = false)
    (hq : c ≠ '"') (behind : List Char) : Stray c behind :=
  ⟨hc, hw, fun h => absurd h hq⟩

theorem stray_quote_iff {behind : List Char} :
    Stray '"' behind ↔ Text.Quoted.read? behind = none := by
  rw [Option.eq_none_iff_forall_not_mem]
  constructor
  · rintro h ⟨content, rest⟩ hread
    obtain ⟨hcontent, hbehind⟩ := Text.Quoted.read?_eq_some_iff.mp hread
    exact h.not_closed rfl content rest hcontent hbehind
  · intro h
    refine ⟨rfl, by decide, fun _ content rest hcontent hbehind => ?_⟩
    exact h (content, rest) (Text.Quoted.read?_eq_some_iff.mpr ⟨hcontent, hbehind⟩)

theorem scan_stray {c : Char} {s : List Char} (h : Stray c s) : scan (c :: s) = scan s := by
  by_cases hq : c = '"'
  · subst hq
    exact scan_unclosed (stray_quote_iff.mp h)
  · exact scan_skip h.ofBracket?_eq_none h.isWordChar_eq_false hq s

theorem locate_stray (before : List Char) {c : Char} {s : List Char} (h : Stray c s) :
    locate before (c :: s) = locate (before ++ [c]) s := by
  by_cases hq : c = '"'
  · subst hq
    exact locate_unclosed before (stray_quote_iff.mp h)
  · exact locate_skip before h.ofBracket?_eq_none h.isWordChar_eq_false hq s

/-- The first token of a text that begins with the text of a token. -/
theorem scan_text {token : Token} {s : List Char} (htoken : token.WellFormed)
    (hend : ∀ w, token = .word w → ∀ d ∈ s.head?, isWordChar d = false) :
    scan (token.text.toList ++ s) = token :: scan s := by
  rw [← map_locate [], locate_text [] htoken hend, List.map_cons, map_locate]

/-- Induction on a text along its parts, which are tokens and stray characters. -/
theorem token_induction {P : List Char → Prop} (nil : P [])
    (stray : ∀ {c s}, Stray c s → P s → P (c :: s))
    (token : ∀ {token : Token} {s}, token.WellFormed →
      (∀ w, token = .word w → ∀ d ∈ s.head?, isWordChar d = false) → P s →
      P (token.text.toList ++ s))
    (s : List Char) : P s := by
  induction s using scan_induction with
  | nil => exact nil
  | @bracket c bracket s hc ih =>
    have hbracket : P (bracket.text.toList ++ s) := token (wellFormed_of_ofBracket? hc)
      (fun w hw => absurd (hw ▸ hc) (ofBracket?_ne_word c w)) ih
    rwa [toList_text_of_ofBracket? hc] at hbracket
  | @word w s hne hw hs ih =>
    have hword : P ((word (String.ofList w)).text.toList ++ s) := token
      ⟨by simpa using hne, by simpa using hw⟩ (fun _ _ => hs) ih
    rwa [show (Token.word (String.ofList w)).text = String.ofList w from rfl,
      String.toList_ofList] at hword
  | @quoted s content rest hread ih =>
    obtain ⟨hcontent, rfl⟩ := Text.Quoted.read?_eq_some_iff.mp hread
    have hliteral : P ((quoted (String.ofList content)).text.toList ++ rest) := token
      (by simpa [WellFormed] using hcontent) (by simp) ih
    rw [toList_text_quoted, String.toList_ofList] at hliteral
    simpa using hliteral
  | unclosed hread ih => exact stray (stray_quote_iff.mpr hread) ih
  | skip s hc hw hq ih => exact stray (.of_ne_quote hc hw hq s) ih

/-- The first character of a token is not stray where the token stands. -/
theorem exists_text_not_stray {token : Token} (h : token.WellFormed) :
    ∃ c rest, token.text.toList = c :: rest ∧ ∀ s, ¬ Stray c (rest ++ s) := by
  cases token with
  | opening b =>
    refine ⟨b.opening, [], toList_text_opening b, fun s hstray => ?_⟩
    exact absurd hstray.ofBracket?_eq_none (by simp [ofBracket?_opening])
  | closing b =>
    refine ⟨b.closing, [], toList_text_closing b, fun s hstray => ?_⟩
    exact absurd hstray.ofBracket?_eq_none (by simp [ofBracket?_closing])
  | word w =>
    obtain ⟨c, rest, hw⟩ := List.exists_cons_of_ne_nil h.1
    refine ⟨c, rest, hw, fun s hstray => ?_⟩
    exact absurd (h.2 c (by simp [hw])) (by simp [hstray.isWordChar_eq_false])
  | quoted content =>
    refine ⟨'"', content.toList ++ ['"'], toList_text_quoted content, fun s hstray => ?_⟩
    exact hstray.not_closed rfl content.toList s h (by simp)

/-! ### The places of tokens -/

section Places

variable {before s : List Char}

/-- What stands before the whole text is put before all places. -/
theorem locate_append (front : List Char) :
    locate (front ++ before) s = (locate before s).map (Prod.map (front ++ ·) id) := by
  induction s using token_induction generalizing before with
  | nil => simp
  | stray hc ih => rw [locate_stray _ hc, locate_stray _ hc, List.append_assoc, ih]
  | token htoken hend ih =>
    rw [locate_text _ htoken hend, locate_text _ htoken hend, List.append_assoc, ih]
    rfl

/-- Each token stands where it is said to stand, in the text behind what stands before all of it. -/
theorem prefix_of_mem_locate {place : List Char × Token} (h : place ∈ locate before s) :
    before <+: place.1 ∧ place.1 ++ place.2.text.toList <+: before ++ s := by
  induction s using token_induction generalizing before with
  | nil => simp at h
  | @stray c s hc ih =>
    rw [locate_stray before hc] at h
    obtain ⟨hbegin, hend⟩ := ih h
    exact ⟨(List.prefix_append before [c]).trans hbegin, by simpa using hend⟩
  | @token token s htoken hend ih =>
    rw [locate_text before htoken hend, List.mem_cons] at h
    rcases h with rfl | h
    · exact ⟨List.prefix_rfl, by simp [← List.append_assoc]⟩
    · obtain ⟨hbegin, hend⟩ := ih h
      exact ⟨(List.prefix_append before token.text.toList).trans hbegin, by simpa using hend⟩

/-- Each token stands behind the ends of all tokens before it. -/
theorem pairwise_locate :
    (locate before s).Pairwise fun p q => p.1 ++ p.2.text.toList <+: q.1 := by
  induction s using token_induction generalizing before with
  | nil => simp
  | stray hc ih => exact locate_stray before hc ▸ ih
  | token htoken hend ih =>
    rw [locate_text before htoken hend, List.pairwise_cons]
    exact ⟨fun place hplace => (prefix_of_mem_locate hplace).1, ih⟩

/-- One of two tokens ends before the other one begins. -/
theorem apart_of_mem_locate {p q : List Char × Token} (hp : p ∈ locate before s)
    (hq : q ∈ locate before s) (hne : p ≠ q) :
    p.1 ++ p.2.text.toList <+: q.1 ∨ q.1 ++ q.2.text.toList <+: p.1 := by
  have hpairs : (locate before s).Pairwise fun p q =>
      p.1 ++ p.2.text.toList <+: q.1 ∨ q.1 ++ q.2.text.toList <+: p.1 :=
    pairwise_locate.imp Or.inl
  have hsymm : Std.Symm fun p q : List Char × Token =>
      p.1 ++ p.2.text.toList <+: q.1 ∨ q.1 ++ q.2.text.toList <+: p.1 := ⟨fun _ _ => Or.symm⟩
  exact hpairs.forall hp hq hne

/-- Whether the character behind `front` is a part of no token: each token that does not begin
behind it ends before it. -/
def Outside (places : List (List Char × Token)) (front : List Char) : Prop :=
  ∀ place ∈ places, place.1 <+: front → place.1 ++ place.2.text.toList <+: front

instance (places : List (List Char × Token)) (front : List Char) :
    Decidable (Outside places front) :=
  inferInstanceAs (Decidable (∀ place ∈ places, _ → _))

/-- The tokens that begin behind the character behind `front`. -/
def tokensBehind (places : List (List Char × Token)) (front : List Char) : List Token :=
  (places.filter fun place => front.length < place.1.length).map Prod.snd

/-- A character outside the tokens is stray, and the tokens that begin behind it are those of the
text behind it. -/
theorem stray_of_outside {front : List Char} {c : Char} {behind : List Char}
    (hs : s = front ++ c :: behind) (houtside : Outside (locate before s) (before ++ front)) :
    Stray c behind ∧ tokensBehind (locate before s) (before ++ front) = scan behind := by
  induction s using token_induction generalizing before front with
  | nil => simp at hs
  | @stray d s hd ih =>
    rw [locate_stray before hd] at houtside ⊢
    cases front with
    | nil =>
      -- the character itself: all tokens begin behind it
      obtain ⟨rfl, rfl⟩ := List.cons.inj hs
      refine ⟨hd, ?_⟩
      rw [tokensBehind, List.append_nil, ← map_locate (before ++ [d]) s]
      congr 1
      rw [List.filter_eq_self]
      intro place hplace
      have hlength := (prefix_of_mem_locate hplace).1.length_le
      rw [List.length_append, List.length_singleton] at hlength
      exact decide_eq_true hlength
    | cons e front =>
      obtain ⟨rfl, hrest⟩ := List.cons.inj hs
      rw [List.append_cons before d front] at houtside ⊢
      exact ih hrest houtside
  | @token token s htoken hend ih =>
    rw [locate_text before htoken hend] at houtside ⊢
    -- the first token ends before the character
    have hprefix := houtside (before, token) (by simp) (List.prefix_append before front)
    rw [List.prefix_append_right_inj] at hprefix
    obtain ⟨front, rfl⟩ := hprefix
    rw [List.append_assoc, List.append_cancel_left_eq] at hs
    rw [← List.append_assoc] at houtside ⊢
    rw [tokensBehind, List.filter_cons_of_neg (by simp)]
    exact ih hs fun place hplace => houtside place (List.mem_cons_of_mem _ hplace)

/-- A word that could go on behind a token is a part of it. -/
theorem isWordChar_behind_text {token : Token}
    (hend : ∀ w, token = .word w → ∀ d ∈ s.head?, isWordChar d = false) :
    ∀ c ∈ (before ++ token.text.toList).getLast?, isWordChar c → ∀ d ∈ s.head?,
      isWordChar d = false := by
  intro c hc hword
  cases token with
  | word w => exact hend w rfl
  | opening b =>
    rw [toList_text_opening, List.getLast?_concat, Option.mem_some] at hc
    subst hc
    cases b <;> exact absurd hword (by decide)
  | closing b =>
    rw [toList_text_closing, List.getLast?_concat, Option.mem_some] at hc
    subst hc
    cases b <;> exact absurd hword (by decide)
  | quoted content =>
    rw [toList_text_quoted, ← List.append_assoc, List.getLast?_concat, Option.mem_some] at hc
    subst hc
    exact absurd hword (by decide)

/-- No word runs on to the left or to the right of its place. -/
theorem maximal_of_mem_locate {front : List Char} {w : String}
    (hbefore : ∀ c ∈ before.getLast?, isWordChar c → ∀ d ∈ s.head?, isWordChar d = false)
    (h : (front, .word w) ∈ locate before s) :
    (∀ c ∈ front.getLast?, isWordChar c = false) ∧
      ∀ behind, before ++ s = front ++ w.toList ++ behind →
        ∀ d ∈ behind.head?, isWordChar d = false := by
  induction s using token_induction generalizing before with
  | nil => simp at h
  | @stray c s hc ih =>
    rw [locate_stray before hc] at h
    have hrest := ih (by simp [hc.isWordChar_eq_false]) h
    simpa using hrest
  | @token token s htoken hend ih =>
    rw [locate_text before htoken hend, List.mem_cons] at h
    rcases h with h | h
    · obtain ⟨rfl, rfl⟩ := Prod.mk.inj h
      constructor
      · intro c hc
        obtain ⟨d, rest, hw⟩ := List.exists_cons_of_ne_nil htoken.1
        have htext : (Token.word w).text.toList = d :: rest := hw
        rw [htext] at hbefore
        -- otherwise the word would have begun with that character or before it
        have hd := htoken.2 d (by rw [hw]; simp)
        cases hword : isWordChar c with
        | false => rfl
        | true => exact absurd hd (by simp [hbefore c hc hword d rfl])
      · intro behind hs
        rw [List.append_assoc, List.append_cancel_left_eq] at hs
        obtain rfl := List.append_cancel_left hs
        exact hend w rfl
    · have hrest := ih (isWordChar_behind_text hend) h
      simpa using hrest

end Places

/-! ### What the places are -/

/-- Whether some places of a text, which has `before` in front of it, are those of its tokens: a
token stands at each of them, and one behind the other; it is one that can be taken off a text; no
word could be longer; and no other character could be a part of a token. -/
structure Layout (before s : List Char) (places : List (List Char × Token)) : Prop where
  stands : ∀ place ∈ places, before <+: place.1 ∧ place.1 ++ place.2.text.toList <+: before ++ s
  ordered : places.Pairwise fun p q => p.1 ++ p.2.text.toList <+: q.1
  wellFormed : ∀ place ∈ places, place.2.WellFormed
  maximal_left : ∀ front w, (front, .word w) ∈ places → ∀ c ∈ front.getLast?, isWordChar c = false
  maximal_right : ∀ front w behind, (front, .word w) ∈ places →
    before ++ s = front ++ w.toList ++ behind → ∀ d ∈ behind.head?, isWordChar d = false
  stray : ∀ front c behind, s = front ++ c :: behind → Outside places (before ++ front) →
    Stray c behind

theorem layout_locate (s : List Char) : Layout [] s (locate [] s) where
  stands _ := prefix_of_mem_locate
  ordered := pairwise_locate
  wellFormed _ := wellFormed_of_mem_locate
  maximal_left _ _ h := (maximal_of_mem_locate (by simp) h).1
  maximal_right _ _ behind h := (maximal_of_mem_locate (by simp) h).2 behind
  stray _ _ _ hs houtside := (stray_of_outside hs houtside).1

namespace Layout

variable {before s : List Char} {places : List (List Char × Token)}

/-- No token begins with a stray character. -/
theorem behind_stray {c : Char} (h : Layout before (c :: s) places) (hc : Stray c s) :
    Layout (before ++ [c]) s places where
  stands place hmem := by
    obtain ⟨⟨front, hfront⟩, hend⟩ := h.stands place hmem
    rw [← hfront] at hend ⊢
    refine ⟨?_, by simpa using hend⟩
    rw [List.append_assoc, List.prefix_append_right_inj] at hend
    rw [List.prefix_append_right_inj]
    cases front with
    | nil =>
      obtain ⟨d, rest, htext, hstray⟩ := exists_text_not_stray (h.wellFormed place hmem)
      rw [List.nil_append, htext] at hend
      obtain ⟨behind, hbehind⟩ := hend
      obtain ⟨rfl, rfl⟩ := List.cons.inj hbehind
      exact absurd hc (hstray behind)
    | cons d front =>
      rw [List.cons_append, List.cons_prefix_cons] at hend
      exact ⟨front, by rw [hend.1]; rfl⟩
  ordered := h.ordered
  wellFormed := h.wellFormed
  maximal_left := h.maximal_left
  maximal_right front w behind hmem hs := h.maximal_right front w behind hmem (by simpa using hs)
  stray front d behind hs houtside :=
    h.stray (c :: front) d behind (by rw [hs]; rfl) (by rwa [List.append_cons])

/-- A token that the text begins with is taken. -/
theorem mem_of_text {token : Token} (h : Layout before (token.text.toList ++ s) places)
    (htoken : token.WellFormed)
    (hend : ∀ w, token = .word w → ∀ d ∈ s.head?, isWordChar d = false) :
    (before, token) ∈ places := by
  obtain ⟨c, rest, htext, hstray⟩ := exists_text_not_stray htoken
  have houtside : ¬ Outside places before := fun houtside =>
    hstray s (h.stray [] c (rest ++ s) (by simp [htext]) (by simpa using houtside))
  simp only [Outside, not_forall] at houtside
  obtain ⟨⟨front, other⟩, hmem, hbegin, -⟩ := houtside
  obtain ⟨hbefore, hprefix⟩ := h.stands _ hmem
  obtain rfl : front = before := hbegin.eq_of_length_le hbefore.length_le
  rw [List.prefix_append_right_inj] at hprefix
  obtain ⟨behind, hbehind⟩ := hprefix
  -- both tokens are the first one of the same text
  have hfirst : scan (other.text.toList ++ behind) = other :: scan behind := by
    refine scan_text (h.wellFormed _ hmem) ?_
    rintro w rfl
    exact h.maximal_right front w behind hmem (by rw [← hbehind, List.append_assoc]; rfl)
  rw [hbehind, scan_text htoken hend] at hfirst
  obtain ⟨rfl, -⟩ := List.cons.inj hfirst
  exact hmem

/-- The other tokens stand behind the first one. -/
theorem tail {token : Token} {rest : List (List Char × Token)}
    (h : Layout before (token.text.toList ++ s) ((before, token) :: rest)) :
    Layout (before ++ token.text.toList) s rest where
  stands place hmem := by
    refine ⟨(List.pairwise_cons.mp h.ordered).1 place hmem, ?_⟩
    rw [List.append_assoc]
    exact (h.stands place (List.mem_cons_of_mem _ hmem)).2
  ordered := (List.pairwise_cons.mp h.ordered).2
  wellFormed place hmem := h.wellFormed place (List.mem_cons_of_mem _ hmem)
  maximal_left front w hmem := h.maximal_left front w (List.mem_cons_of_mem _ hmem)
  maximal_right front w behind hmem hs :=
    h.maximal_right front w behind (List.mem_cons_of_mem _ hmem) (by rwa [← List.append_assoc])
  stray front c behind hs houtside := by
    refine h.stray (token.text.toList ++ front) c behind (by rw [hs, List.append_assoc]) ?_
    rw [← List.append_assoc]
    intro place hmem
    rcases List.mem_cons.mp hmem with rfl | hmem
    · exact fun _ => List.prefix_append _ front
    · exact houtside place hmem

/-- A token that the text begins with is the first one. -/
theorem behind_text {token : Token} (h : Layout before (token.text.toList ++ s) places)
    (htoken : token.WellFormed)
    (hend : ∀ w, token = .word w → ∀ d ∈ s.head?, isWordChar d = false) :
    ∃ rest, places = (before, token) :: rest ∧ Layout (before ++ token.text.toList) s rest := by
  have hmem := h.mem_of_text htoken hend
  cases places with
  | nil => simp at hmem
  | cons first rest =>
    rcases List.mem_cons.mp hmem with rfl | hmem
    · exact ⟨rest, rfl, h.tail⟩
    · -- a token before it would end where it stands itself
      obtain ⟨c, text, htext, -⟩ := exists_text_not_stray (h.wellFormed first (by simp))
      have hbegin : before.length ≤ first.1.length := (h.stands first (by simp)).1.length_le
      have hlength : (first.1 ++ first.2.text.toList).length ≤ before.length :=
        ((List.pairwise_cons.mp h.ordered).1 _ hmem).length_le
      rw [htext, List.length_append, List.length_cons] at hlength
      omega

/-- There is one way only to take tokens off a text. -/
theorem eq_locate (h : Layout before s places) : places = locate before s := by
  induction s using token_induction generalizing before places with
  | nil =>
    rw [locate_nil, List.eq_nil_iff_forall_not_mem]
    intro place hmem
    obtain ⟨hbegin, hend⟩ := h.stands place hmem
    obtain ⟨c, rest, htext, -⟩ := exists_text_not_stray (h.wellFormed place hmem)
    have hlength := hbegin.length_le
    have hlength' := hend.length_le
    rw [htext] at hlength'
    simp only [List.length_append, List.length_cons, List.length_nil] at hlength'
    omega
  | stray hc ih => rw [locate_stray before hc, ih (h.behind_stray hc)]
  | token htoken hend ih =>
    obtain ⟨rest, rfl, hrest⟩ := h.behind_text htoken hend
    rw [locate_text before htoken hend, ih hrest]

end Layout

/-- The text that tokens are taken from is made of the texts of the tokens of a filter, in their
order, and of stray characters between them, and it is so in no other way. -/
theorem tokenize_layout (filter : String) :
    (locate [] (prepare filter.toList)).map Prod.snd = tokenize filter ∧
      ∀ places, Layout [] (prepare filter.toList) places ↔
        places = locate [] (prepare filter.toList) := by
  refine ⟨map_locate [] _, fun places => ⟨Layout.eq_locate, ?_⟩⟩
  rintro rfl
  exact layout_locate _

end Token

end ScimQuery
