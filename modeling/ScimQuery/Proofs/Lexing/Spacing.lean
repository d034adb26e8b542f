import Mathlib.Data.List.Chain
import ScimQuery.Proofs.Lexing.Scanning

/-!
# Spacing and tokens

Before tokens are taken off a text, brackets are set apart and white space is reduced. Both passes
are `IsSpacer`s: transducers that change nothing but white space, and that remove no white space
right behind another character.

A spacer moves no token and makes none, and the ends of literals stay where they are
(`read?_writeFrom`). All that it changes is the white space inside literals. `locate_writeFrom` says
this of the tokens of a whole text: they stand behind the same characters, white space left aside.
-/

namespace ScimQuery

namespace Text

/-- The characters of a text that are no white space. -/
def visible (s : List Char) : List Char := s.filter fun c => !isBlank c

@[simp] theorem visible_nil : visible [] = [] := rfl

@[simp] theorem visible_cons (c : Char) (s : List Char) :
    visible (c :: s) = if isBlank c then visible s else c :: visible s := by
  cases hc : isBlank c <;> simp [visible, hc]

@[simp] theorem visible_append (s t : List Char) : visible (s ++ t) = visible s ++ visible t :=
  List.filter_append s t

theorem visible_eq_nil {s : List Char} (h : ∀ c ∈ s, isBlank c) : visible s = [] := by
  apply List.filter_eq_nil_iff.mpr
  intro c hc
  simp [h c hc]

end Text

namespace Transducer

variable {σ τ : Type}

/-- The state after a text. -/
def after (t : Transducer σ) (q : σ) (s : List Char) : σ := s.foldl t.next q

@[simp] theorem after_nil (t : Transducer σ) (q : σ) : t.after q [] = q := rfl

@[simp] theorem after_cons (t : Transducer σ) (q : σ) (c : Char) (s : List Char) :
    t.after q (c :: s) = t.after (t.next q c) s := rfl

@[simp] theorem after_append (t : Transducer σ) (q : σ) (s u : List Char) :
    t.after q (s ++ u) = t.after (t.after q s) u := List.foldl_append

/-- What is written for a text that goes on, if nothing is written at the end. -/
theorem writeFrom_append {t : Transducer σ} (h : ∀ q, t.finish q = []) (q : σ) (s u : List Char) :
    t.writeFrom q (s ++ u) = t.writeFrom q s ++ t.writeFrom (t.after q s) u := by
  induction s generalizing q with
  | nil => simp [h]
  | cons c s ih => simp [ih]

/-- One pass behind another, neither of which writes anything at the end. -/
def followedBy (t : Transducer σ) (u : Transducer τ) : Transducer (σ × τ) where
  start := (t.start, u.start)
  next q c := (t.next q.1 c, u.after q.2 (t.emit q.1 c))
  emit q c := u.writeFrom q.2 (t.emit q.1 c)

theorem followedBy_writeFrom {t : Transducer σ} {u : Transducer τ} (ht : ∀ q, t.finish q = [])
    (hu : ∀ q, u.finish q = []) (q : σ × τ) (s : List Char) :
    (t.followedBy u).writeFrom q s = u.writeFrom q.2 (t.writeFrom q.1 s) := by
  induction s generalizing q with
  | nil => simp [followedBy, ht, hu]
  | cons c s ih =>
    rw [writeFrom_cons, writeFrom_cons, writeFrom_append hu, ih]
    rfl

theorem followedBy_after (t : Transducer σ) (u : Transducer τ) (q : σ × τ) (s : List Char) :
    ((t.followedBy u).after q s).1 = t.after q.1 s := by
  induction s generalizing q with
  | nil => rfl
  | cons c s ih => exact ih _

/-- The second pass goes on behind what the first one has written. -/
theorem followedBy_after_snd {t : Transducer σ} (ht : ∀ q, t.finish q = []) (u : Transducer τ)
    (q : σ × τ) (s : List Char) :
    ((t.followedBy u).after q s).2 = u.after q.2 (t.writeFrom q.1 s) := by
  induction s generalizing q with
  | nil => rw [writeFrom_nil, ht]; rfl
  | cons c s ih => rw [after_cons, ih, writeFrom_cons, after_append]; rfl

/-- A transducer that changes nothing but white space, writes none around anything but brackets, and
keeps at least some of the white space behind all other characters. -/
structure IsSpacer (t : Transducer σ) : Prop where
  finish_eq : ∀ q, t.finish q = []
  emit_blank : ∀ q c, Text.isBlank c → ∀ d ∈ t.emit q c, Text.isBlank d
  emit_bracket : ∀ q c, (Token.ofBracket? c).isSome → ∃ front back : List Char,
    t.emit q c = front ++ c :: back ∧ (∀ d ∈ front, Text.isBlank d) ∧ ∀ d ∈ back, Text.isBlank d
  emit_other : ∀ q c, Text.isBlank c = false → Token.ofBracket? c = none → t.emit q c = [c]
  emit_ne_nil : ∀ q c d, Text.isBlank c = false → Token.ofBracket? c = none →
    t.emit (t.next q c) d ≠ []

end Transducer

namespace Transducer.IsSpacer

variable {σ : Type} {t : Transducer σ}

theorem emit_quote (h : t.IsSpacer) (q : σ) : t.emit q '"' = ['"'] :=
  h.emit_other q '"' (by decide) rfl

theorem emit_backslash (h : t.IsSpacer) (q : σ) : t.emit q '\\' = ['\\'] :=
  h.emit_other q '\\' (by decide) rfl

/-- What is written for one character has no mark or backslash, except for the character itself. -/
theorem emit_passive (h : t.IsSpacer) (q : σ) {c : Char} (hq : c ≠ '"') (hb : c ≠ '\\') :
    ∀ d ∈ t.emit q c, d ≠ '"' ∧ d ≠ '\\' := by
  intro d hd
  -- the character itself is passive, and all that can be added to it is white space
  by_cases hc : Text.isBlank c
  · exact Token.ne_of_isBlank (h.emit_blank q c hc d hd)
  · rw [Bool.not_eq_true] at hc
    cases hbracket : Token.ofBracket? c with
    | none =>
      rw [h.emit_other q c hc hbracket, List.mem_singleton] at hd
      exact hd ▸ ⟨hq, hb⟩
    | some token =>
      obtain ⟨front, back, hemit, hfront, hback⟩ := h.emit_bracket q c (by rw [hbracket]; rfl)
      rw [hemit, List.mem_append, List.mem_cons] at hd
      rcases hd with hd | rfl | hd
      · exact Token.ne_of_isBlank (hfront d hd)
      · exact ⟨hq, hb⟩
      · exact Token.ne_of_isBlank (hback d hd)

/-- Something is written for every character right behind one that is neither white space nor a
bracket, and only the first character of it can be a mark or a backslash. -/
theorem emit_eq_cons (h : t.IsSpacer) (q : σ) {c : Char} (hc : Text.isBlank c = false)
    (hc' : Token.ofBracket? c = none) (d : Char) :
    ∃ e back, t.emit (t.next q c) d = e :: back ∧ ∀ x ∈ back, x ≠ '"' ∧ x ≠ '\\' := by
  cases hemit : t.emit (t.next q c) d with
  | nil => exact absurd hemit (h.emit_ne_nil q c d hc hc')
  | cons e back =>
    refine ⟨e, back, rfl, ?_⟩
    by_cases hd : d = '"' ∨ d = '\\'
    · -- marks and backslashes are written as they are
      have hself : t.emit (t.next q c) d = [d] := by
        rcases hd with rfl | rfl
        · exact h.emit_quote _
        · exact h.emit_backslash _
      rw [hself, List.cons.injEq] at hemit
      simp [← hemit.2]
    · rw [not_or] at hd
      intro x hx
      exact h.emit_passive (t.next q c) hd.1 hd.2 x (by rw [hemit]; simp [hx])

/-- A spacer leaves the ends of literals where they are. -/
theorem read?_writeFrom (h : t.IsSpacer) (q : σ) (s : List Char) :
    Text.Quoted.read? (t.writeFrom q s) = (Text.Quoted.read? s).map fun r =>
      (t.writeFrom q r.1, t.writeFrom (t.after q (r.1 ++ ['"'])) r.2) := by
  induction s using Text.Quoted.content_induction generalizing q with
  | nil => simp [h.finish_eq]
  | mark s => simp [h.emit_quote, h.finish_eq]
  | backslash => simp [h.emit_backslash, h.finish_eq]
  | pair c s ih =>
    -- the backslash goes with the first character that is written for the next one
    obtain ⟨e, back, hemit, hback⟩ :=
      h.emit_eq_cons q (show Text.isBlank '\\' = false by decide) rfl c
    rw [writeFrom_cons, writeFrom_cons, h.emit_backslash, hemit]
    simp only [List.cons_append, List.nil_append, Text.Quoted.read?_pair,
      Text.Quoted.read?_append hback, ih, Option.map_map]
    congr 1
    funext r
    simp [h.emit_backslash, hemit]
  | plain c s hq hb ih =>
    rw [writeFrom_cons, Text.Quoted.read?_append (h.emit_passive q hq hb), ih,
      Text.Quoted.read?_cons hq hb, Option.map_map, Option.map_map]
    congr 1
    funext r
    simp

theorem visible_emit (h : t.IsSpacer) (q : σ) (c : Char) :
    Text.visible (t.emit q c) = Text.visible [c] := by
  by_cases hblank : Text.isBlank c
  · rw [Text.visible_eq_nil (h.emit_blank q c hblank)]
    simp [hblank]
  · rw [Bool.not_eq_true] at hblank
    cases hbracket : Token.ofBracket? c with
    | none => rw [h.emit_other q c hblank hbracket]
    | some token =>
      obtain ⟨front, back, hemit, hfront, hback⟩ := h.emit_bracket q c (by rw [hbracket]; rfl)
      simp [hemit, Text.visible_eq_nil hfront, Text.visible_eq_nil hback]

/-- What a spacer writes differs from what it reads in white space only. -/
theorem visible_writeFrom (h : t.IsSpacer) (q : σ) (s : List Char) :
    Text.visible (t.writeFrom q s) = Text.visible s := by
  induction s generalizing q with
  | nil => rw [writeFrom_nil, h.finish_eq]
  | cons c s ih =>
    rw [writeFrom_cons, Text.visible_append, h.visible_emit, ih, ← Text.visible_append]
    rfl

/-! ### Words that have been spaced -/

section Words

variable (h : t.IsSpacer) (q : σ)

include h

theorem writeFrom_word {w : List Char} (hw : ∀ c ∈ w, Token.isWordChar c) (s : List Char) :
    t.writeFrom q (w ++ s) = w ++ t.writeFrom (t.after q w) s := by
  induction w generalizing q with
  | nil => rfl
  | cons c w ih =>
    have hc : Token.isWordChar c := hw c (by simp)
    have hblank := Token.isBlank_eq_false_of_isWordChar hc
    rw [List.cons_append, writeFrom_cons, ih _ fun d hd => hw d (by simp [hd]),
      h.emit_other q c hblank (Token.ofBracket?_eq_none_of_isWordChar hc)]
    rfl

/-- No word goes on behind its end. -/
theorem head?_writeFrom {c : Char} (hc : Token.isWordChar c) {s : List Char}
    (hs : ∀ d ∈ s.head?, Token.isWordChar d = false) :
    ∀ d ∈ (t.writeFrom (t.next q c) s).head?, Token.isWordChar d = false := by
  cases s with
  | nil => simp [h.finish_eq]
  | cons d s =>
    obtain ⟨e, back, hemit, -⟩ := h.emit_eq_cons q (Token.isBlank_eq_false_of_isWordChar hc)
      (Token.ofBracket?_eq_none_of_isWordChar hc) d
    rw [writeFrom_cons, hemit]
    simp only [List.cons_append, List.head?_cons, Option.mem_def, Option.some.injEq,
      forall_eq'] at hs ⊢
    have hmem : e ∈ t.emit (t.next q c) d := by simp [hemit]
    -- what is written first is white space, a bracket or the character that ended the word
    by_cases hblank : Text.isBlank d
    · exact Token.isWordChar_eq_false_of_isBlank (h.emit_blank _ d hblank e hmem)
    · rw [Bool.not_eq_true] at hblank
      cases hbracket : Token.ofBracket? d with
      | none =>
        rw [h.emit_other _ d hblank hbracket, List.mem_singleton] at hmem
        exact hmem ▸ hs
      | some token =>
        obtain ⟨front, tail, hemit', hfront, -⟩ :=
          h.emit_bracket (t.next q c) d (by rw [hbracket]; rfl)
        rw [hemit] at hemit'
        cases front with
        | nil =>
          rw [List.nil_append, List.cons.injEq] at hemit'
          exact hemit'.1 ▸ hs
        | cons f front =>
          rw [List.cons_append, List.cons.injEq] at hemit'
          exact hemit'.1 ▸ Token.isWordChar_eq_false_of_isBlank (hfront f (by simp))

end Words

end Transducer.IsSpacer

/-! ### The tokens of a whole text -/

namespace Token

/-- A token whose content has been spaced from a state on, if it is a literal. -/
def respace {σ : Type} (t : Transducer σ) (q : σ) : Token → Token
  | .quoted content => .quoted (String.ofList (t.writeFrom (t.next q '"') content.toList))
  | token => token

theorem respace_of_ofBracket? {σ : Type} {t : Transducer σ} {q : σ} {c : Char} {token : Token}
    (h : ofBracket? c = some token) : token.respace t q = token := by
  unfold ofBracket? at h
  split at h <;> cases h <;> rfl

/-- A spacer keeps every token, up to the white space in literals, behind the characters that it
stands behind. -/
theorem locate_writeFrom {σ : Type} {t : Transducer σ} (h : t.IsSpacer) (q : σ)
    (before out : List Char) (hout : Text.visible out = Text.visible before) (s : List Char) :
    (locate out (t.writeFrom (t.after q before) s)).map (Prod.map Text.visible id) =
      (locate before s).map fun place =>
        (Text.visible place.1, place.2.respace t (t.after q place.1)) := by
  induction s using scan_induction generalizing before out with
  | nil => simp [h.finish_eq]
  | @bracket c token s hc ih =>
    obtain ⟨front, back, hemit, hfront, hback⟩ :=
      h.emit_bracket (t.after q before) c (by rw [hc]; rfl)
    have hout' : Text.visible (out ++ front ++ [c] ++ back) = Text.visible (before ++ [c]) := by
      simp [hout, Text.visible_eq_nil hfront, Text.visible_eq_nil hback]
    have hrest := ih _ _ hout'
    rw [Transducer.after_append] at hrest
    rw [Transducer.writeFrom_cons, hemit, List.append_assoc, locate_blanks out hfront,
      List.cons_append, locate_bracket _ hc, locate_blanks _ hback, locate_bracket before hc,
      List.map_cons, List.map_cons, ← hrest, respace_of_ofBracket? hc]
    simp [hout, Text.visible_eq_nil hfront]
  | @word w s hne hw hs ih =>
    have hend : ∀ d ∈ (t.writeFrom (t.after (t.after q before) w) s).head?,
        isWordChar d = false := by
      obtain ⟨front, c, rfl⟩ := (List.eq_nil_or_concat w).resolve_left hne
      rw [List.concat_eq_append, Transducer.after_append]
      exact h.head?_writeFrom _ (hw c (by simp)) hs
    have hrest := ih (before ++ w) (out ++ w) (by simp [hout])
    rw [Transducer.after_append] at hrest
    rw [h.writeFrom_word _ hw, locate_word out hne hw hend, locate_word before hne hw hs,
      List.map_cons, List.map_cons, ← hrest]
    simp [hout, respace]
  | @quoted s content rest hread ih =>
    have hspaced := h.read?_writeFrom (t.next (t.after q before) '"') s
    rw [hread, Option.map_some] at hspaced
    have hrest := ih (before ++ ('"' :: content ++ ['"']))
      (out ++ ('"' :: t.writeFrom (t.next (t.after q before) '"') content ++ ['"']))
      (by simp [hout, h.visible_writeFrom])
    rw [Transducer.after_append] at hrest
    rw [Transducer.writeFrom_cons, h.emit_quote, List.singleton_append, locate_quoted out hspaced,
      locate_quoted before hread, List.map_cons, List.map_cons, ← hrest]
    simp [hout, respace]
  | @unclosed s hread ih =>
    have hspaced := h.read?_writeFrom (t.next (t.after q before) '"') s
    rw [hread, Option.map_none] at hspaced
    have hrest := ih (before ++ ['"']) (out ++ ['"']) (by simp [hout])
    rw [Transducer.after_append] at hrest
    rw [Transducer.writeFrom_cons, h.emit_quote, List.singleton_append,
      locate_unclosed out hspaced, locate_unclosed before hread, ← hrest]
    rfl
  | @skip c s hc hw hq ih =>
    rw [Transducer.writeFrom_cons, locate_skip before hc hw hq]
    by_cases hblank : Text.isBlank c
    · have hemit := h.emit_blank (t.after q before) c hblank
      have hrest := ih (before ++ [c]) (out ++ t.emit (t.after q before) c)
        (by simp [hout, Text.visible_eq_nil hemit, hblank])
      rw [Transducer.after_append] at hrest
      rw [locate_blanks out hemit, ← hrest]
      rfl
    · have hrest := ih (before ++ [c]) (out ++ [c]) (by simp [hout])
      rw [Transducer.after_append] at hrest
      rw [h.emit_other _ c (by simpa using hblank) hc, List.singleton_append,
        locate_skip out hc hw hq, ← hrest]
      rfl

/-- The tokens of a text that has been spaced are those of the text, spaced anew. -/
theorem scan_writeFrom {σ : Type} {t : Transducer σ} (h : t.IsSpacer) (q : σ)
    (before s : List Char) :
    scan (t.writeFrom (t.after q before) s) =
      (locate before s).map fun place => place.2.respace t (t.after q place.1) := by
  have hplaces := congrArg (List.map Prod.snd) (locate_writeFrom h q before before rfl s)
  rw [List.map_map, List.map_map] at hplaces
  rw [← map_locate before]
  exact hplaces

/-- Nothing is left of a character that is in no token. -/
theorem scan_writeFrom_skip {σ : Type} {t : Transducer σ} (h : t.IsSpacer) (q : σ) {c : Char}
    (hc : ofBracket? c = none) (hw : isWordChar c = false) (hq : c ≠ '"') (s : List Char) :
    scan (t.writeFrom q (c :: s)) = scan (t.writeFrom (t.next q c) s) := by
  have hall := scan_writeFrom h q [] (c :: s)
  rw [locate_skip [] hc hw hq] at hall
  exact hall.trans (scan_writeFrom h q [c] s).symm

end Token

/-! ### Reduced white space -/

namespace Text

theorem collapser_blank {b : Bool} {c : Char} (hc : isBlank c) (s : List Char) :
    collapser.writeFrom b (c :: s) = (if b then [] else [' ']) ++ collapser.writeFrom true s := by
  simp [collapser, hc]

theorem collapser_other {b : Bool} {c : Char} (hc : isBlank c = false) (s : List Char) :
    collapser.writeFrom b (c :: s) = c :: collapser.writeFrom false s := by
  simp [collapser, hc]

theorem collapser_writeFrom_self (b : Bool) (s : List Char) :
    collapser.writeFrom b (collapser.writeFrom b s) = collapser.writeFrom b s := by
  induction s generalizing b with
  | nil => rfl
  | cons c s ih =>
    by_cases hc : isBlank c
    · rw [collapser_blank hc]
      cases b with
      | false =>
        simp only [Bool.false_eq_true, if_false, List.singleton_append]
        rw [collapser_blank isBlank_space, ih]
        simp
      | true => simpa using ih true
    · rw [Bool.not_eq_true] at hc
      rw [collapser_other hc, collapser_other hc, ih]

/-- White space that has been reduced stays as it is. -/
theorem collapse_collapse (s : List Char) : collapse (collapse s) = collapse s :=
  collapser_writeFrom_self false s

/-- Whether the white space of a text is spaces, and none of them next to another. -/
structure SingleSpaced (s : List Char) : Prop where
  eq_space : ∀ c ∈ s, isBlank c → c = ' '
  isolated : s.IsChain fun c d => isBlank c → isBlank d = false

theorem singleSpaced_cons {c : Char} {s : List Char} :
    SingleSpaced (c :: s) ↔ (isBlank c → c = ' ' ∧ ∀ d ∈ s.head?, isBlank d = false) ∧
      SingleSpaced s := by
  constructor
  · rintro ⟨hspace, hisolated⟩
    rw [List.forall_mem_cons] at hspace
    rw [List.isChain_cons] at hisolated
    exact ⟨fun hc => ⟨hspace.1 hc, fun d hd => hisolated.1 d hd hc⟩, hspace.2, hisolated.2⟩
  · rintro ⟨hfirst, hspace, hisolated⟩
    refine ⟨List.forall_mem_cons.mpr ⟨fun hc => (hfirst hc).1, hspace⟩, ?_⟩
    exact List.isChain_cons.mpr ⟨fun d hd hc => (hfirst hc).2 d hd, hisolated⟩

theorem length_collapser_writeFrom_le (b : Bool) (s : List Char) :
    (collapser.writeFrom b s).length ≤ s.length := by
  induction s generalizing b with
  | nil => exact Nat.le_refl 0
  | cons c s ih =>
    by_cases hc : isBlank c
    · have hrest := ih true
      rw [collapser_blank hc]
      cases b <;> simp <;> omega
    · rw [Bool.not_eq_true] at hc
      rw [collapser_other hc]
      exact Nat.succ_le_succ (ih false)

theorem collapser_writeFrom_eq_self_iff {b : Bool} {s : List Char} :
    collapser.writeFrom b s = s ↔
      SingleSpaced s ∧ (b = true → ∀ d ∈ s.head?, isBlank d = false) := by
  induction s generalizing b with
  | nil =>
    have hnil : SingleSpaced [] := ⟨by simp, .nil⟩
    exact ⟨fun _ => ⟨hnil, by simp⟩, fun _ => rfl⟩
  | cons c s ih =>
    rw [singleSpaced_cons, List.head?_cons]
    by_cases hc : isBlank c
    · rw [collapser_blank hc]
      cases b with
      | false =>
        rw [if_neg Bool.false_ne_true, List.singleton_append, List.cons.injEq, ih, eq_comm]
        simp [hc, and_comm, and_left_comm]
      | true =>
        -- the character would be left out
        have hlength := length_collapser_writeFrom_le true s
        have hne : collapser.writeFrom true s ≠ c :: s := fun heq => by
          rw [heq, List.length_cons] at hlength
          omega
        simp [hne, hc]
    · rw [Bool.not_eq_true] at hc
      rw [collapser_other hc, List.cons.injEq, ih]
      simp [hc]

/-- Reducing white space leaves exactly those texts as they are that have single spaces only. -/
theorem collapse_eq_self_iff {s : List Char} : collapse s = s ↔ SingleSpaced s := by
  rw [collapse, Transducer.write, collapser_writeFrom_eq_self_iff]
  exact and_iff_left (fun h => absurd h Bool.false_ne_true)

theorem singleSpaced_of_not_isBlank {s : List Char} (h : ∀ c ∈ s, isBlank c = false) :
    SingleSpaced s := by
  induction s with
  | nil => exact ⟨by simp, .nil⟩
  | cons c s ih =>
    have hc := h c (by simp)
    exact singleSpaced_cons.mpr ⟨by simp [hc], ih fun d hd => h d (by simp [hd])⟩

end Text

/-! ### The passes before scanning -/

namespace Transducer

variable {σ τ : Type} {t : Transducer σ} {u : Transducer τ}

theorem IsSpacer.writeFrom_blanks (h : t.IsSpacer) (q : σ) {s : List Char}
    (hs : ∀ c ∈ s, Text.isBlank c) : ∀ c ∈ t.writeFrom q s, Text.isBlank c := by
  induction s generalizing q with
  | nil => simp [h.finish_eq]
  | cons c s ih =>
    intro d hd
    rw [writeFrom_cons, List.mem_append] at hd
    rcases hd with hd | hd
    · exact h.emit_blank q c (hs c (by simp)) d hd
    · exact ih _ (fun e he => hs e (by simp [he])) d hd

/-- Two spacers one behind the other are a spacer. -/
theorem IsSpacer.followedBy (ht : t.IsSpacer) (hu : u.IsSpacer) : (t.followedBy u).IsSpacer where
  finish_eq _ := rfl
  emit_blank q c hc := hu.writeFrom_blanks q.2 (ht.emit_blank q.1 c hc)
  emit_bracket q c hc := by
    obtain ⟨front, back, hemit, hfront, hback⟩ := ht.emit_bracket q.1 c hc
    obtain ⟨front', back', hemit', hfront', hback'⟩ := hu.emit_bracket (u.after q.2 front) c hc
    refine ⟨u.writeFrom q.2 front ++ front',
      back' ++ u.writeFrom (u.next (u.after q.2 front) c) back, ?_, ?_, ?_⟩
    · show u.writeFrom q.2 (t.emit q.1 c) = _
      rw [hemit, writeFrom_append hu.finish_eq, writeFrom_cons, hemit']
      simp
    · intro d hd
      rcases List.mem_append.mp hd with hd | hd
      · exact hu.writeFrom_blanks q.2 hfront d hd
      · exact hfront' d hd
    · intro d hd
      rcases List.mem_append.mp hd with hd | hd
      · exact hback' d hd
      · exact hu.writeFrom_blanks _ hback d hd
  emit_other q c hc hc' := by
    show u.writeFrom q.2 (t.emit q.1 c) = [c]
    rw [ht.emit_other q.1 c hc hc', writeFrom_cons, hu.emit_other q.2 c hc hc']
    simp [hu.finish_eq]
  emit_ne_nil q c d hc hc' := by
    show u.writeFrom (u.after q.2 (t.emit q.1 c)) (t.emit (t.next q.1 c) d) ≠ []
    rw [ht.emit_other q.1 c hc hc']
    cases hemit : t.emit (t.next q.1 c) d with
    | nil => exact absurd hemit (ht.emit_ne_nil q.1 c d hc hc')
    | cons e back =>
      -- the second pass has not seen anything since it wrote `c`
      rw [writeFrom_cons]
      intro hnil
      exact hu.emit_ne_nil q.2 c e hc hc' (List.append_eq_nil_iff.mp hnil).1

theorem isSpacer_padder : Token.padder.IsSpacer where
  finish_eq _ := rfl
  emit_blank q c hc d hd := by
    simp only [Token.padder, Token.ofBracket?_eq_none_of_isBlank hc] at hd
    simp_all
  emit_bracket q c hc := by
    by_cases hq : q.inLiteral
    · exact ⟨[], [], by simp [Token.padder, hq], by simp, by simp⟩
    · exact ⟨[' '], [' '], by simp [Token.padder, hq, hc], by simp; decide, by simp; decide⟩
  emit_other q c _ hc := by simp [Token.padder, hc]
  emit_ne_nil q c d _ _ := by
    have hemit : ∀ p, Token.padder.emit p d ≠ [] := by
      intro p
      simp only [Token.padder]
      split <;> simp
    exact hemit _

theorem isSpacer_collapser : Text.collapser.IsSpacer where
  finish_eq _ := rfl
  emit_blank q c hc d hd := by
    cases q
    · simp [Text.collapser, hc] at hd
      subst hd
      decide
    · simp [Text.collapser, hc] at hd
  emit_bracket q c hc := by
    obtain ⟨token, hbracket⟩ := Option.isSome_iff_exists.mp hc
    have hblank := Token.isBlank_eq_false_of_ofBracket? hbracket
    exact ⟨[], [], by simp [Text.collapser, hblank], by simp, by simp⟩
  emit_other q c hc _ := by simp [Text.collapser, hc]
  emit_ne_nil q c d hc _ := by
    simp only [Text.collapser, hc]
    split <;> simp

end Transducer

namespace Token

/-- The two passes that a text goes through before tokens are taken off it. -/
def spacer : Transducer (PadState × Bool) := padder.followedBy Text.collapser

theorem isSpacer_spacer : spacer.IsSpacer :=
  Transducer.isSpacer_padder.followedBy Transducer.isSpacer_collapser

/-- Of the two passes, the padding is the one that no other pass comes before. -/
theorem after_spacer_fst (q : PadState × Bool) (s : List Char) :
    (spacer.after q s).1 = padder.after q.1 s :=
  Transducer.followedBy_after padder Text.collapser q s

theorem prepare_eq (s : List Char) : prepare s = Text.trim (spacer.write s) :=
  congrArg Text.trim (Transducer.followedBy_writeFrom Transducer.isSpacer_padder.finish_eq
    Transducer.isSpacer_collapser.finish_eq spacer.start s).symm

theorem tokenize_eq (filter : String) : tokenize filter = scan (spacer.write filter.toList) := by
  rw [tokenize, prepare_eq, scan_trim]

/-- The tokens of a filter are those that stand in its text, with the literals spaced anew. -/
theorem tokenize_eq_map (filter : String) :
    tokenize filter =
      (locate [] filter.toList).map fun place =>
        place.2.respace spacer (spacer.after spacer.start place.1) := by
  rw [tokenize_eq]
  exact scan_writeFrom isSpacer_spacer spacer.start [] filter.toList

end Token

end ScimQuery
