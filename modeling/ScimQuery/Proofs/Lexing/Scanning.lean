import ScimQuery.Token.Lexer

/-!
# Scanning a text

What `Token.scan` takes off a text, one token or skipped character after the other. `IsContent` says
what can stand in a literal, and a quotation mark begins a literal if and only if such a content and
another mark follow (`read?_eq_some_iff`).

`scan_induction` is the induction along the tokens of a text. White space at its ends holds no token
(`scan_trim`). `locate` gives the tokens along with what stands before each of them.
-/

namespace ScimQuery

namespace Text

/-! ### White space, words and marks -/

theorem isBlank_iff {c : Char} :
    isBlank c ↔ ∃ r ∈ blankRanges, r.1 ≤ c.toNat ∧ c.toNat ≤ r.2 := by
  simp [isBlank]

theorem isBlank_space : isBlank ' ' = true := rfl

theorem ne_of_isBlank {c d : Char} (hc : isBlank c) (hd : isBlank d = false) : c ≠ d := by
  rintro rfl
  rw [hd] at hc
  exact absurd hc (by decide)

/-- Nothing is trimmed off a text but white space at its ends. -/
theorem exists_eq_append_trim (s : List Char) : ∃ front back, s = front ++ (trim s ++ back) ∧
    (∀ c ∈ front, isBlank c) ∧ ∀ c ∈ back, isBlank c := by
  have hall : ∀ u : List Char, ∀ c ∈ u.takeWhile isBlank, isBlank c := fun u c hc =>
    List.all_eq_true.mp List.all_takeWhile c hc
  refine ⟨s.takeWhile isBlank, ((s.dropWhile isBlank).reverse.takeWhile isBlank).reverse, ?_,
    hall s, fun c hc => hall _ c (List.mem_reverse.mp hc)⟩
  rw [trim, ← List.reverse_append, List.takeWhile_append_dropWhile, List.reverse_reverse,
    List.takeWhile_append_dropWhile]

end Text

namespace Token

theorem isWordChar_iff {c : Char} : isWordChar c ↔
    65 ≤ c.toNat ∧ c.toNat ≤ 90 ∨ 97 ≤ c.toNat ∧ c.toNat ≤ 122 ∨ 48 ≤ c.toNat ∧ c.toNat ≤ 57 ∨
      c = '_' ∨ c = '.' := by
  simp only [isWordChar, Bool.or_eq_true, Bool.and_eq_true, decide_eq_true_eq, beq_iff_eq,
    Char.le_def, UInt32.le_iff_toNat_le, or_assoc]
  rfl

theorem isWordChar_of_isDigit {c : Char} (h : c.isDigit) : isWordChar c := by
  simp only [Char.isDigit, Bool.and_eq_true, decide_eq_true_eq, ge_iff_le,
    UInt32.le_iff_toNat_le] at h
  rw [isWordChar_iff]
  exact .inr (.inr (.inl h))

theorem isWordChar_eq_false_of_isBlank {c : Char} (h : Text.isBlank c) : isWordChar c = false := by
  rw [← Bool.not_eq_true, isWordChar_iff]
  obtain ⟨r, hr, hlo, hhi⟩ := Text.isBlank_iff.mp h
  -- all word characters lie between the blanks of ASCII and those behind it
  have hgap : ∀ r ∈ Text.blankRanges, r.2 ≤ 32 ∨ 133 ≤ r.1 := by decide
  have hunderscore : '_'.toNat = 95 := rfl
  have hdot : '.'.toNat = 46 := rfl
  have := hgap r hr
  rintro (h | h | h | rfl | rfl) <;> omega

theorem isBlank_eq_false_of_isWordChar {c : Char} (h : isWordChar c) : Text.isBlank c = false := by
  cases hblank : Text.isBlank c with
  | false => rfl
  | true =>
    rw [isWordChar_eq_false_of_isBlank hblank] at h
    exact absurd h (by decide)

/-- A character of words is neither a mark nor a backslash. -/
theorem ne_of_isWordChar {c : Char} (h : isWordChar c) : c ≠ '"' ∧ c ≠ '\\' := by
  constructor
  · rintro rfl
    exact absurd h (by decide)
  · rintro rfl
    exact absurd h (by decide)

theorem ofBracket?_eq_none_of_isBlank {c : Char} (h : Text.isBlank c) : ofBracket? c = none := by
  unfold ofBracket?
  split <;> simp_all +decide

theorem isBlank_eq_false_of_ofBracket? {c : Char} {token : Token} (h : ofBracket? c = some token) :
    Text.isBlank c = false := by
  cases hblank : Text.isBlank c with
  | false => rfl
  | true =>
    rw [ofBracket?_eq_none_of_isBlank hblank] at h
    exact absurd h (by simp)

theorem ofBracket?_eq_none_of_isWordChar {c : Char} (h : isWordChar c) : ofBracket? c = none := by
  unfold ofBracket?
  split <;> simp_all +decide

/-- A bracket is neither a mark nor a backslash. -/
theorem ne_of_ofBracket? {c : Char} (h : (ofBracket? c).isSome) : c ≠ '"' ∧ c ≠ '\\' := by
  constructor
  · rintro rfl
    exact absurd h (by decide)
  · rintro rfl
    exact absurd h (by decide)

/-- White space is neither a mark nor a backslash. -/
theorem ne_of_isBlank {c : Char} (h : Text.isBlank c) : c ≠ '"' ∧ c ≠ '\\' :=
  ⟨Text.ne_of_isBlank h (by decide), Text.ne_of_isBlank h (by decide)⟩

/-- Only the four brackets are bracket tokens. -/
theorem ofBracket?_eq_some_iff {c : Char} {token : Token} : ofBracket? c = some token ↔
    ∃ b : Bracket, c = b.opening ∧ token = .opening b ∨ c = b.closing ∧ token = .closing b := by
  constructor
  · intro h
    unfold ofBracket? at h
    split at h <;> cases h
    · exact ⟨.round, .inl ⟨rfl, rfl⟩⟩
    · exact ⟨.round, .inr ⟨rfl, rfl⟩⟩
    · exact ⟨.square, .inl ⟨rfl, rfl⟩⟩
    · exact ⟨.square, .inr ⟨rfl, rfl⟩⟩
  · rintro ⟨b, ⟨rfl, rfl⟩ | ⟨rfl, rfl⟩⟩ <;> cases b <;> rfl

theorem ofBracket?_quote : ofBracket? '"' = none := rfl

/-- A run of characters ends where another one follows. -/
theorem span_append {p : Char → Bool} {w s : List Char} (hw : ∀ c ∈ w, p c)
    (hs : ∀ d ∈ s.head?, p d = false) :
    (w ++ s).takeWhile p = w ∧ (w ++ s).dropWhile p = s := by
  rw [List.takeWhile_append_of_pos hw, List.dropWhile_append_of_pos hw]
  cases s with
  | nil => simp
  | cons d s => simp [hs d rfl]

theorem scan_append_word {w s : List Char} (hne : w ≠ []) (hw : ∀ c ∈ w, isWordChar c)
    (hs : ∀ d ∈ s.head?, isWordChar d = false) :
    scan (w ++ s) = .word (String.ofList w) :: scan s := by
  cases w with
  | nil => exact absurd rfl hne
  | cons c w =>
    obtain ⟨htake, hdrop⟩ := span_append (fun d hd => hw d (List.mem_cons_of_mem c hd)) hs
    rw [List.cons_append, scan_word (hw c (by simp)), htake, hdrop]

end Token

namespace Text.Quoted

/-! ### Literals -/

/-- What stands between the marks of a literal: plain characters, and pairs of a backslash and the
character behind it. -/
inductive IsContent : List Char → Prop
  | nil : IsContent []
  | plain {c : Char} {s : List Char} (hq : c ≠ '"') (hb : c ≠ '\\') (hs : IsContent s) :
      IsContent (c :: s)
  | pair {s : List Char} (c : Char) (hs : IsContent s) : IsContent ('\\' :: c :: s)

/-- Induction on a text as the content of a literal. -/
theorem content_induction {P : List Char → Prop} (nil : P []) (mark : ∀ s, P s → P ('"' :: s))
    (backslash : P ['\\']) (pair : ∀ c s, P s → P ('\\' :: c :: s))
    (plain : ∀ c s, c ≠ '"' → c ≠ '\\' → P s → P (c :: s)) (s : List Char) : P s := by
  induction hn : s.length using Nat.strongRecOn generalizing s with
  | _ n ih =>
    subst hn
    cases s with
    | nil => exact nil
    | cons c s =>
      by_cases hq : c = '"'
      · exact hq ▸ mark s (ih s.length (by simp) s rfl)
      · by_cases hb : c = '\\'
        · subst hb
          cases s with
          | nil => exact backslash
          | cons d s => exact pair d s (ih s.length (by simp only [List.length_cons]; omega) s rfl)
        · exact plain c s hq hb (ih s.length (by simp) s rfl)

/-- Characters other than marks and backslashes belong to the literal. -/
theorem read?_append {front : List Char} (h : ∀ c ∈ front, c ≠ '"' ∧ c ≠ '\\') (s : List Char) :
    read? (front ++ s) = (read? s).map fun r => (front ++ r.1, r.2) := by
  induction front with
  | nil => simp
  | cons c front ih =>
    obtain ⟨hq, hb⟩ := h c (by simp)
    rw [List.cons_append, read?_cons hq hb, ih fun d hd => h d (by simp [hd]), Option.map_map]
    rfl

/-- The content of a literal ends at the first mark behind which it is complete. -/
theorem read?_eq_some_iff {s content rest : List Char} :
    read? s = some (content, rest) ↔ IsContent content ∧ s = content ++ '"' :: rest := by
  constructor
  · intro h
    induction s using content_induction generalizing content with
    | nil => simp at h
    | mark s =>
      simp only [read?_quote, Option.some.injEq, Prod.mk.injEq] at h
      obtain ⟨rfl, rfl⟩ := h
      exact ⟨.nil, rfl⟩
    | backslash => simp at h
    | pair c s ih =>
      rw [read?_pair, Option.map_eq_some_iff] at h
      obtain ⟨⟨content', rest'⟩, hread, hr⟩ := h
      simp only [Prod.mk.injEq] at hr
      obtain ⟨rfl, rfl⟩ := hr
      obtain ⟨hcontent, rfl⟩ := ih hread
      exact ⟨.pair c hcontent, rfl⟩
    | plain c s hq hb ih =>
      rw [read?_cons hq hb, Option.map_eq_some_iff] at h
      obtain ⟨⟨content', rest'⟩, hread, hr⟩ := h
      simp only [Prod.mk.injEq] at hr
      obtain ⟨rfl, rfl⟩ := hr
      obtain ⟨hcontent, rfl⟩ := ih hread
      exact ⟨.plain hq hb hcontent, rfl⟩
  · rintro ⟨hcontent, rfl⟩
    induction hcontent with
    | nil => rfl
    | plain hq hb _ ih => rw [List.cons_append, read?_cons hq hb, ih]; rfl
    | pair c _ ih => rw [List.cons_append, List.cons_append, read?_pair, ih]; rfl

/-- White space at the end of a text belongs to no literal. -/
theorem read?_append_blanks (s : List Char) {back : List Char}
    (h : ∀ c ∈ back, Text.isBlank c) :
    read? (s ++ back) = (read? s).map fun r => (r.1, r.2 ++ back) := by
  have hpassive : ∀ c ∈ back, c ≠ '"' ∧ c ≠ '\\' := fun c hc => Token.ne_of_isBlank (h c hc)
  induction s using content_induction with
  | nil => simpa using read?_append hpassive []
  | mark s => simp
  | backslash =>
    -- the first blank would be the character behind the backslash, but no mark follows
    cases back with
    | nil => rfl
    | cons c back =>
      have hrest := read?_append (fun d hd => hpassive d (List.mem_cons_of_mem c hd)) []
      rw [List.append_nil] at hrest
      simp [hrest]
  | pair c s ih =>
    simp only [List.cons_append, read?_pair, ih, Option.map_map]
    rfl
  | plain c s hq hb ih =>
    simp only [List.cons_append, read?_cons hq hb, ih, Option.map_map]
    rfl

end Text.Quoted

namespace Token

/-! ### All tokens -/

/-- Induction on a text along its tokens. -/
theorem scan_induction {P : List Char → Prop} (nil : P [])
    (bracket : ∀ {c token} (s : List Char), ofBracket? c = some token → P s → P (c :: s))
    (word : ∀ {w s : List Char}, w ≠ [] → (∀ c ∈ w, isWordChar c) →
      (∀ d ∈ s.head?, isWordChar d = false) → P s → P (w ++ s))
    (quoted : ∀ {s content rest : List Char}, Text.Quoted.read? s = some (content, rest) → P rest →
      P ('"' :: s))
    (unclosed : ∀ {s : List Char}, Text.Quoted.read? s = none → P s → P ('"' :: s))
    (skip : ∀ {c} (s : List Char), ofBracket? c = none → isWordChar c = false → c ≠ '"' → P s →
      P (c :: s))
    (s : List Char) : P s := by
  induction hn : s.length using Nat.strongRecOn generalizing s with
  | _ n ih =>
    subst hn
    cases s with
    | nil => exact nil
    | cons c s =>
      have ih' : ∀ u : List Char, u.length ≤ s.length → P u := fun u hu =>
        ih u.length (by simp only [List.length_cons]; omega) u rfl
      cases hc : ofBracket? c with
      | some token => exact bracket s hc (ih' s (Nat.le_refl _))
      | none =>
        by_cases hw : isWordChar c
        · -- the whole word is taken off at once
          have hsplit : c :: s = (c :: s.takeWhile isWordChar) ++ s.dropWhile isWordChar := by simp
          rw [hsplit]
          refine word (by simp) ?_ ?_ (ih' _ (List.dropWhile_suffix isWordChar).length_le)
          · intro d hd
            rcases List.mem_cons.mp hd with rfl | hd
            · exact hw
            · exact List.all_eq_true.mp List.all_takeWhile d hd
          · intro d hd
            have := List.head?_dropWhile_not isWordChar s
            rwa [Option.mem_def.mp hd] at this
        · by_cases hq : c = '"'
          · subst hq
            cases hread : Text.Quoted.read? s with
            | some r =>
              have := Text.Quoted.length_of_read? hread
              exact quoted hread (ih' r.2 (by omega))
            | none => exact unclosed hread (ih' s (Nat.le_refl _))
          · exact skip s hc (by simpa using hw) hq (ih' s (Nat.le_refl _))

/-! ### Where the tokens stand -/

/-- The tokens of a text, each with what stands before it. `before` stands before the whole text. -/
def locate (before : List Char) : List Char → List (List Char × Token)
  | [] => []
  | c :: rest =>
    match ofBracket? c with
    | some token => (before, token) :: locate (before ++ [c]) rest
    | none =>
      if isWordChar c then
        let w := c :: rest.takeWhile isWordChar
        (before, .word (String.ofList w)) :: locate (before ++ w) (rest.dropWhile isWordChar)
      else if c = '"' then
        match _h : Text.Quoted.read? rest with
        | some (content, behind) =>
          (before, .quoted (String.ofList content)) ::
            locate (before ++ ('"' :: content ++ ['"'])) behind
        | none => locate (before ++ ['"']) rest
      else locate (before ++ [c]) rest
termination_by s => s.length
decreasing_by
  all_goals simp only [List.length_cons]
  · omega
  · have := (List.dropWhile_suffix (l := rest) isWordChar).length_le
    omega
  · have := Text.Quoted.length_of_read? _h
    omega
  all_goals omega

section Locate

variable (before : List Char)

@[simp] theorem locate_nil : locate before [] = [] := by rw [locate]

theorem locate_bracket {c : Char} {token : Token} (h : ofBracket? c = some token) (s : List Char) :
    locate before (c :: s) = (before, token) :: locate (before ++ [c]) s := by
  rw [locate, h]

theorem locate_word {w s : List Char} (hne : w ≠ []) (hw : ∀ c ∈ w, isWordChar c)
    (hs : ∀ d ∈ s.head?, isWordChar d = false) :
    locate before (w ++ s) = (before, .word (String.ofList w)) :: locate (before ++ w) s := by
  cases w with
  | nil => exact absurd rfl hne
  | cons c w =>
    have hc : isWordChar c := hw c (by simp)
    obtain ⟨htake, hdrop⟩ := span_append (fun d hd => hw d (List.mem_cons_of_mem c hd)) hs
    rw [List.cons_append, locate, ofBracket?_eq_none_of_isWordChar hc]
    simp only [hc, if_true, htake, hdrop]

theorem locate_quoted {s content rest : List Char}
    (h : Text.Quoted.read? s = some (content, rest)) :
    locate before ('"' :: s) =
      (before, .quoted (String.ofList content)) ::
        locate (before ++ ('"' :: content ++ ['"'])) rest := by
  rw [locate, show ofBracket? '"' = none from rfl]
  simp only [show isWordChar '"' = false from rfl, Bool.false_eq_true, if_false, if_true]
  split
  · rename_i h'
    rw [h, Option.some.injEq, Prod.mk.injEq] at h'
    rw [h'.1, h'.2]
  · simp_all

theorem locate_unclosed {s : List Char} (h : Text.Quoted.read? s = none) :
    locate before ('"' :: s) = locate (before ++ ['"']) s := by
  rw [locate, show ofBracket? '"' = none from rfl]
  simp only [show isWordChar '"' = false from rfl, Bool.false_eq_true, if_false, if_true]
  split
  · simp_all
  · rfl

theorem locate_skip {c : Char} (hc : ofBracket? c = none) (hw : isWordChar c = false) (hq : c ≠ '"')
    (s : List Char) : locate before (c :: s) = locate (before ++ [c]) s := by
  rw [locate, hc]
  simp only [hw, Bool.false_eq_true, if_false, hq]

end Locate

/-- The tokens that have been located are those of the text. -/
theorem map_locate (before s : List Char) : (locate before s).map Prod.snd = scan s := by
  induction s using scan_induction generalizing before with
  | nil => simp
  | bracket s hc ih => rw [locate_bracket before hc, List.map_cons, ih, scan_bracket hc]
  | word hne hw hs ih =>
    rw [locate_word before hne hw hs, List.map_cons, ih, scan_append_word hne hw hs]
  | quoted hread ih => rw [locate_quoted before hread, List.map_cons, ih, scan_quoted hread]
  | unclosed hread ih => rw [locate_unclosed before hread, ih, scan_unclosed hread]
  | skip s hc hw hq ih => rw [locate_skip before hc hw hq, ih, scan_skip hc hw hq]

/-! ### White space around the tokens -/

/-- White space before the tokens is skipped. -/
theorem locate_blanks (before : List Char) {front : List Char}
    (h : ∀ d ∈ front, Text.isBlank d) (s : List Char) :
    locate before (front ++ s) = locate (before ++ front) s := by
  induction front generalizing before with
  | nil => simp
  | cons d front ih =>
    have hd : Text.isBlank d := h d (by simp)
    rw [List.cons_append, locate_skip before (ofBracket?_eq_none_of_isBlank hd)
      (isWordChar_eq_false_of_isBlank hd) (Text.ne_of_isBlank hd (by decide)),
      ih _ fun e he => h e (by simp [he]), List.append_assoc, List.singleton_append]

theorem scan_blanks {front : List Char} (h : ∀ d ∈ front, Text.isBlank d) (s : List Char) :
    scan (front ++ s) = scan s := by
  rw [← map_locate [], locate_blanks [] h, map_locate]

/-- White space behind the tokens is skipped. -/
theorem locate_append_blanks (before s : List Char) {back : List Char}
    (h : ∀ c ∈ back, Text.isBlank c) : locate before (s ++ back) = locate before s := by
  induction s using scan_induction generalizing before with
  | nil => simpa using locate_blanks before h []
  | bracket s hc ih => rw [List.cons_append, locate_bracket before hc, locate_bracket before hc, ih]
  | @word w s hne hw hs ih =>
    rw [List.append_assoc, locate_word before hne hw hs, locate_word before hne hw, ih]
    -- at the end of the text, it is the white space that ends the word
    cases s with
    | nil =>
      intro d hd
      exact isWordChar_eq_false_of_isBlank (h d (List.mem_of_mem_head? hd))
    | cons d s => exact hs
  | @quoted s content rest hread ih =>
    have hread' := Text.Quoted.read?_append_blanks s h
    rw [hread, Option.map_some] at hread'
    rw [List.cons_append, locate_quoted before hread', locate_quoted before hread, ih]
  | @unclosed s hread ih =>
    have hread' := Text.Quoted.read?_append_blanks s h
    rw [hread, Option.map_none] at hread'
    rw [List.cons_append, locate_unclosed before hread', locate_unclosed before hread, ih]
  | skip s hc hw hq ih =>
    rw [List.cons_append, locate_skip before hc hw hq, locate_skip before hc hw hq, ih]

theorem scan_append_blanks (s : List Char) {back : List Char} (h : ∀ c ∈ back, Text.isBlank c) :
    scan (s ++ back) = scan s := by
  rw [← map_locate [], locate_append_blanks [] s h, map_locate]

theorem scan_trim (s : List Char) : scan (Text.trim s) = scan s := by
  obtain ⟨front, back, hs, hfront, hback⟩ := Text.exists_eq_append_trim s
  conv => rhs; rw [hs]
  rw [scan_blanks hfront, scan_append_blanks _ hback]

/-! ### Which tokens there are -/

/-- Whether a text is a word. -/
def IsWord (s : String) : Prop := s.toList ≠ [] ∧ ∀ c ∈ s.toList, isWordChar c

theorem isWord_of_all {s : String} (hne : s.toList ≠ []) (h : s.toList.all isWordChar) :
    IsWord s :=
  ⟨hne, List.all_eq_true.mp h⟩

/-- Whether a token can be taken off a text: words have characters of words only, and literals end
at their closing mark and not before it. -/
def WellFormed : Token → Prop
  | word w => IsWord w
  | quoted content => Text.Quoted.IsContent content.toList
  | _ => True

theorem wellFormed_of_ofBracket? {c : Char} {token : Token} (h : ofBracket? c = some token) :
    token.WellFormed := by
  obtain ⟨b, ⟨-, rfl⟩ | ⟨-, rfl⟩⟩ := ofBracket?_eq_some_iff.mp h <;> trivial

theorem wellFormed_of_mem_scan {s : List Char} {token : Token} (h : token ∈ scan s) :
    token.WellFormed := by
  induction s using scan_induction with
  | nil => simp at h
  | bracket s hc ih =>
    rw [scan_bracket hc, List.mem_cons] at h
    rcases h with rfl | h
    · exact wellFormed_of_ofBracket? hc
    · exact ih h
  | word hne hw hs ih =>
    rw [scan_append_word hne hw hs, List.mem_cons] at h
    rcases h with rfl | h
    · simpa [WellFormed, IsWord] using ⟨hne, hw⟩
    · exact ih h
  | quoted hread ih =>
    rw [scan_quoted hread, List.mem_cons] at h
    rcases h with rfl | h
    · simpa [WellFormed] using (Text.Quoted.read?_eq_some_iff.mp hread).1
    · exact ih h
  | unclosed hread ih => exact ih (scan_unclosed hread ▸ h)
  | skip s hc hw hq ih => exact ih (scan_skip hc hw hq s ▸ h)

theorem wellFormed_of_mem_locate {before s : List Char} {place : List Char × Token}
    (h : place ∈ locate before s) : place.2.WellFormed := by
  have hscan : place.2 ∈ scan s := map_locate before s ▸ List.mem_map_of_mem h
  exact wellFormed_of_mem_scan hscan

end Token

end ScimQuery
