import ScimQuery.Proofs.Lexing.Places

/-!
# Marks that are not closed

A quotation mark that no other mark closes is skipped, and what follows it is lexed as text. It may
have further marks, which stand behind backslashes. None of them begins a literal: the backslashes
pair up in the same way from any of them on (`read?_eq_none_of_append`). The rest of the text is
therefore lexed as if it had spaces for its marks and backslashes.
-/

namespace ScimQuery

/-- If a mark is not closed, then no mark behind it is. -/
theorem Text.Quoted.read?_eq_none_of_append {front rest : List Char}
    (h : read? (front ++ '"' :: rest) = none) : read? rest = none := by
  induction front using content_induction with
  | nil => simp at h
  | mark front => simp at h
  | backslash => simpa using h
  | pair c front ih => exact ih (by simpa using h)
  | plain c front hq hb ih =>
    rw [List.cons_append, read?_cons hq hb, Option.map_eq_none_iff] at h
    exact ih h

namespace Token

/-- A space for a mark or a backslash, and any other character as it is. -/
def blankMark (c : Char) : Char := if c = '"' ∨ c = '\\' then ' ' else c

theorem blankMark_of_passive {c : Char} (hq : c ≠ '"') (hb : c ≠ '\\') : blankMark c = c :=
  if_neg (not_or.mpr ⟨hq, hb⟩)

theorem blankMark_ne_quote (c : Char) : blankMark c ≠ '"' := by
  unfold blankMark
  split
  · decide
  · rename_i h
    exact (not_or.mp h).1

theorem isWordChar_blankMark (c : Char) : isWordChar (blankMark c) = isWordChar c := by
  unfold blankMark
  split
  · rename_i h
    rcases h with rfl | rfl <;> decide
  · rfl

theorem Stray.blankMark {c : Char} {s : List Char} (h : Stray c s) (behind : List Char) :
    Stray (blankMark c) behind := by
  refine .of_ne_quote ?_ ?_ (blankMark_ne_quote c) behind
  · unfold Token.blankMark
    split
    · rfl
    · exact h.ofBracket?_eq_none
  · rw [isWordChar_blankMark, h.isWordChar_eq_false]

theorem map_blankMark_of_passive {s : List Char} (h : ∀ c ∈ s, c ≠ '"' ∧ c ≠ '\\') :
    s.map blankMark = s := by
  conv => rhs; rw [← List.map_id s]
  exact List.map_congr_left fun c hc => blankMark_of_passive (h c hc).1 (h c hc).2

/-- A text in which no mark is closed has the same tokens without its marks and backslashes. -/
theorem scan_map_blankMark {s : List Char}
    (h : ∀ front rest, s = front ++ '"' :: rest → Text.Quoted.read? rest = none) :
    scan (s.map blankMark) = scan s := by
  induction s using token_induction with
  | nil => rfl
  | @stray c s hc ih =>
    have hrest : ∀ front rest, s = front ++ '"' :: rest → Text.Quoted.read? rest = none :=
      fun front rest hs => h (c :: front) rest (by rw [hs]; rfl)
    rw [List.map_cons, scan_stray (hc.blankMark _), scan_stray hc, ih hrest]
  | @token token s htoken hend ih =>
    have hrest : ∀ front rest, s = front ++ '"' :: rest → Text.Quoted.read? rest = none :=
      fun front rest hs => h (token.text.toList ++ front) rest (by rw [hs, List.append_assoc])
    have hliteral : token.literal? = none := by
      cases htext : token.literal? with
      | none => rfl
      | some content =>
        -- the opening mark of a literal is closed
        obtain rfl := literal?_eq_some_iff.mp htext
        have hread : Text.Quoted.read? (content.toList ++ '"' :: s) = some (content.toList, s) :=
          Text.Quoted.read?_eq_some_iff.mpr ⟨htoken, rfl⟩
        rw [h [] _ (by rw [toList_text_quoted]; simp)] at hread
        exact absurd hread (by simp)
    have hend' : ∀ w, token = .word w → ∀ d ∈ (s.map blankMark).head?, isWordChar d = false := by
      intro w hw d hd
      rw [List.head?_map, Option.mem_def, Option.map_eq_some_iff] at hd
      obtain ⟨e, he, rfl⟩ := hd
      rw [isWordChar_blankMark, hend w hw e he]
    rw [List.map_append, map_blankMark_of_passive (passive_of_literal?_eq_none htoken hliteral),
      scan_text htoken hend', scan_text htoken hend, ih hrest]

/-! ### Texts without marks -/

theorem quoted_notMem_scan {s : List Char} (h : '"' ∉ s) (content : String) :
    quoted content ∉ scan s := by
  rw [← map_locate [] s, List.mem_map]
  rintro ⟨⟨front, token⟩, hplace, rfl⟩
  have hstands := (prefix_of_mem_locate hplace).2
  rw [toList_text_quoted] at hstands
  exact h (hstands.subset (by simp))

/-- A text without marks is lexed as it is. -/
theorem tokenize_of_quote_notMem {s : List Char} (h : '"' ∉ s) :
    tokenize (String.ofList s) = scan s := by
  rw [tokenize_eq_map, String.toList_ofList, ← map_locate [] s]
  refine List.map_congr_left fun place hplace => ?_
  obtain ⟨front, token⟩ := place
  cases token with
  | quoted content =>
    have hscan : quoted content ∈ scan s := by
      rw [← map_locate [] s]
      exact List.mem_map_of_mem hplace
    exact absurd hscan (quoted_notMem_scan h content)
  | _ => rfl

/-! ### The rest of a filter -/

/-- The tokens behind a mark that belongs to none of them are no literals. They are the tokens of
the rest of the text with spaces for its marks and backslashes. -/
theorem tokensBehind_unclosed_mark {filter : String} {front behind : List Char}
    (hmark : prepare filter.toList = front ++ '"' :: behind)
    (houtside : Outside (locate [] (prepare filter.toList)) front) :
    (∀ content, quoted content ∉ tokensBehind (locate [] (prepare filter.toList)) front) ∧
      tokensBehind (locate [] (prepare filter.toList)) front =
        tokenize (String.ofList (behind.map blankMark)) := by
  obtain ⟨hstray, htokens⟩ := stray_of_outside hmark houtside
  rw [List.nil_append] at htokens
  have hunclosed : ∀ front rest, behind = front ++ '"' :: rest → Text.Quoted.read? rest = none :=
    fun front rest hs => Text.Quoted.read?_eq_none_of_append (hs ▸ stray_quote_iff.mp hstray)
  have hnone : '"' ∉ behind.map blankMark := by
    rw [List.mem_map]
    rintro ⟨c, -, hc⟩
    exact blankMark_ne_quote c hc
  have hscan : tokensBehind (locate [] (prepare filter.toList)) front =
      scan (behind.map blankMark) := by rw [htokens, scan_map_blankMark hunclosed]
  rw [tokenize_of_quote_notMem hnone, hscan]
  exact ⟨quoted_notMem_scan hnone, rfl⟩

/-- The third mark is not closed, since the fourth one stands behind a backslash. -/
theorem tokensBehind_third_mark :
    let filter := "a eq \"x\\\\\" and b eq \"Joe \\\"(c pr"
    let front := "a eq \"x\\\\\" and b eq ".toList
    let behind := "Joe \\\" ( c pr".toList
    prepare filter.toList = front ++ '"' :: behind ∧
      Outside (locate [] (prepare filter.toList)) front ∧
      (∀ content, quoted content ∉ tokensBehind (locate [] (prepare filter.toList)) front) ∧
      tokensBehind (locate [] (prepare filter.toList)) front =
        tokenize (String.ofList (behind.map blankMark)) ∧
      tokenize (String.ofList (behind.map blankMark)) =
        [.word "Joe", .opening .round, .word "c", .word "pr"] := by
  intro filter front behind
  have hmark : prepare filter.toList = front ++ '"' :: behind := by decide +kernel
  have houtside : Outside (locate [] (prepare filter.toList)) front := by decide +kernel
  have hbehind := tokensBehind_unclosed_mark hmark houtside
  exact ⟨hmark, houtside, hbehind.1, hbehind.2, by decide +kernel⟩

end Token

end ScimQuery
