import Mathlib.Data.List.TakeWhile
import ScimQuery.Operand
import ScimQuery.Proofs.Lexing.Scanning

/-!
# Numerals and their texts

A word is read as a numeral if and only if it is the text of that numeral (`ofWord?_eq_some_iff`),
which takes a digit on each side of a point. Nothing in this depends on which characters are the
digits, as long as neither the minus sign nor the point is one of them (`read?_eq_some_iff`).
-/

namespace ScimQuery

namespace Numeral

/-! ### Texts of numerals -/

/-- A numeral without its sign. -/
def unsignedText (n : Numeral) : List Char := n.whole ++ n.fraction.elim [] ('.' :: ·)

/-- The text of a numeral. -/
def text (n : Numeral) : List Char := (if n.negative then ['-'] else []) ++ n.unsignedText

/-- Whether a numeral has digits, of a class that may be chosen, on each side of its point. -/
structure HasDigits (isDigit : Char → Bool) (n : Numeral) : Prop where
  whole_ne_nil : n.whole ≠ []
  fraction_ne_nil : ∀ fraction ∈ n.fraction, fraction ≠ []
  isDigit : ∀ c ∈ n.whole ++ n.fraction.getD [], isDigit c

theorem mem_unsignedText {isDigit : Char → Bool} {n : Numeral} (h : n.HasDigits isDigit) {c : Char}
    (hc : c ∈ n.unsignedText) : isDigit c ∨ c = '.' := by
  rw [unsignedText, List.mem_append] at hc
  rcases hc with hc | hc
  · exact .inl (h.isDigit c (List.mem_append_left _ hc))
  · cases hfraction : n.fraction with
    | none => simp [hfraction] at hc
    | some fraction =>
      rw [hfraction, Option.elim_some, List.mem_cons] at hc
      rcases hc with rfl | hc
      · exact .inr rfl
      · exact .inl (h.isDigit c (by simp [hfraction, hc]))

theorem mem_text {isDigit : Char → Bool} {n : Numeral} (h : n.HasDigits isDigit) {c : Char}
    (hc : c ∈ n.text) : isDigit c ∨ c = '.' ∨ c = '-' := by
  rw [text, List.mem_append] at hc
  rcases hc with hc | hc
  · exact .inr (.inr (List.mem_singleton.mp (List.mem_ite_nil_right.mp hc).2))
  · exact (mem_unsignedText h hc).imp_right .inl

/-- Takes an unsigned word apart. -/
def readUnsigned? (isDigit : Char → Bool) (negative : Bool) (word : List Char) : Option Numeral :=
  if (word.takeWhile isDigit).isEmpty then none
  else match word.dropWhile isDigit with
    | [] => some ⟨negative, word.takeWhile isDigit, none⟩
    | '.' :: fraction =>
      if !fraction.isEmpty && fraction.all isDigit then
        some ⟨negative, word.takeWhile isDigit, some fraction⟩
      else none
    | _ => none

/-- Takes a word apart as `ofWord?` does, with a free choice of what a digit is:
`-?D+(\.D+)?`. -/
def read? (isDigit : Char → Bool) : List Char → Option Numeral
  | '-' :: word => readUnsigned? isDigit true word
  | word => readUnsigned? isDigit false word

theorem read?_of_ne_minus (isDigit : Char → Bool) {word : List Char}
    (h : ∀ rest, word ≠ '-' :: rest) :
    read? isDigit word = readUnsigned? isDigit false word := by
  unfold read?
  split
  · rename_i rest
    exact absurd rfl (h rest)
  · rfl

theorem ofWord?_eq_read? (word : List Char) : ofWord? word = read? Char.isDigit word := by
  unfold ofWord?
  split
  rename_i negative unsigned hsplit
  split at hsplit
  · cases hsplit
    rfl
  · rename_i hminus
    cases hsplit
    rw [read?_of_ne_minus Char.isDigit fun rest heq => hminus rest heq]
    rfl

section Read

variable {isDigit : Char → Bool}

theorem readUnsigned?_eq_some_iff (hpoint : isDigit '.' = false) {negative : Bool}
    {word : List Char} {n : Numeral} : readUnsigned? isDigit negative word = some n ↔
      n.negative = negative ∧ n.unsignedText = word ∧ n.HasDigits isDigit := by
  constructor
  · intro h
    have hsplit := List.takeWhile_append_dropWhile (p := isDigit) (l := word)
    have hwhole : ∀ c ∈ word.takeWhile isDigit, isDigit c := fun c hc => by
      simpa using List.mem_takeWhile_imp hc
    rw [readUnsigned?, Option.ite_none_left_eq_some, List.isEmpty_iff] at h
    obtain ⟨hne, h⟩ := h
    split at h
    · rename_i hrest
      obtain rfl := Option.some.inj h
      rw [hrest] at hsplit
      exact ⟨rfl, hsplit, hne, by simp, by simpa using hwhole⟩
    · rename_i fraction hrest
      rw [Option.ite_none_right_eq_some, Bool.and_eq_true, List.all_eq_true] at h
      obtain ⟨⟨hfraction, hdigits⟩, h⟩ := h
      obtain rfl := Option.some.inj h
      rw [hrest] at hsplit
      refine ⟨rfl, hsplit, hne, by simpa using hfraction, ?_⟩
      simp only [Option.getD_some, List.forall_mem_append]
      exact ⟨hwhole, hdigits⟩
    · exact absurd h (by simp)
  · rintro ⟨rfl, rfl, hne, hfraction, hdigits⟩
    obtain ⟨negative, whole, fraction⟩ := n
    have hwhole : ∀ c ∈ whole, isDigit c := fun c hc => hdigits c (List.mem_append_left _ hc)
    cases fraction with
    | none =>
      obtain ⟨htake, hdrop⟩ := Token.span_append (s := []) hwhole (by simp)
      simp only [unsignedText, Option.elim_none, readUnsigned?, htake, hdrop]
      rw [if_neg (by simpa using hne)]
    | some fraction =>
      obtain ⟨htake, hdrop⟩ :=
        Token.span_append (s := '.' :: fraction) hwhole (by simpa using hpoint)
      have hall : fraction.all isDigit := by
        rw [List.all_eq_true]
        exact fun c hc => hdigits c (List.mem_append_right _ hc)
      have hnonempty : fraction ≠ [] := hfraction fraction rfl
      simp only [unsignedText, Option.elim_some, readUnsigned?, htake, hdrop]
      rw [if_neg (by simpa using hne), if_pos (by simp [hall, hnonempty])]

/-- A word is read as a numeral if and only if it is the text of that numeral. -/
theorem read?_eq_some_iff (hminus : isDigit '-' = false) (hpoint : isDigit '.' = false)
    {word : List Char} {n : Numeral} :
    read? isDigit word = some n ↔ n.text = word ∧ n.HasDigits isDigit := by
  -- the text of a numeral without a sign begins with a digit
  have hunsigned : n.HasDigits isDigit → ∀ rest, n.unsignedText ≠ '-' :: rest := by
    intro h rest heq
    obtain ⟨c, whole, hwhole⟩ := List.exists_cons_of_ne_nil h.whole_ne_nil
    have hdigit := h.isDigit c (by simp [hwhole])
    rw [unsignedText, hwhole, List.cons_append, List.cons.injEq] at heq
    rw [heq.1, hminus] at hdigit
    exact absurd hdigit (by simp)
  by_cases hword : ∃ rest, word = '-' :: rest
  · obtain ⟨rest, rfl⟩ := hword
    rw [read?, readUnsigned?_eq_some_iff hpoint, text]
    cases hn : n.negative with
    | true => simp
    | false => simpa using fun heq h => hunsigned h rest heq
  · rw [not_exists] at hword
    rw [read?_of_ne_minus isDigit hword, readUnsigned?_eq_some_iff hpoint, text]
    cases hn : n.negative with
    | true => simpa using fun heq => absurd heq.symm (hword _)
    | false => simp

end Read

/-- A word is a numeral with ASCII digits if and only if it is the text of that numeral. -/
theorem ofWord?_eq_some_iff {word : List Char} {n : Numeral} :
    ofWord? word = some n ↔ n.text = word ∧ n.HasDigits Char.isDigit := by
  rw [ofWord?_eq_read?, read?_eq_some_iff (by decide) (by decide)]

end Numeral

end ScimQuery
