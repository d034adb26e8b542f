import ScimQuery.Proofs.Lexing.Padding
import ScimQuery.Proofs.Numbers
import ScimQuery.Proofs.Numerals

/-!
# Operands and their words

All operands but the texts and the numbers that are not finite are typed as they were when they are
read from what they are displayed as (`ofWord_display_of_finite`).

An operand that comes from a text is `WellFormed`: a number is neither negative nor infinite, since
no word has a sign, and a text can stand in a literal as it is. What such a number or truth value is
displayed as is one word (`ofWord_display`).
-/

namespace ScimQuery

/-! ### Words -/

namespace Token

theorem IsWord.ne_minus {word : String} (h : IsWord word) (rest : List Char) :
    word.toList ≠ '-' :: rest := by
  intro hword
  have hminus := h.2 '-' (by rw [hword]; simp)
  exact absurd hminus (by decide)

end Token

namespace Numeral

theorem negative_of_ofWord? {word : List Char} {n : Numeral} (hword : ∀ rest, word ≠ '-' :: rest)
    (h : ofWord? word = some n) : n.negative = false := by
  obtain ⟨htext, -⟩ := ofWord?_eq_some_iff.mp h
  cases hn : n.negative with
  | false => rfl
  | true => exact absurd htext.symm (by simpa [text, hn] using hword n.unsignedText)

end Numeral

/-! ### Operands -/

namespace Operand

/-- Whether an operand can come from a text. -/
def WellFormed : Operand → Prop
  | .text s => (Token.quoted s).Settled
  | .integer n => 0 ≤ n.toInt
  | .real x => ∃ m, x = .finite false m
  | .boolean _ => True

theorem toInt_ofInt {n : Int} (hlo : Int64.minValue.toInt ≤ n) (hhi : n ≤ Int64.maxValue.toInt) :
    (Int64.ofInt n).toInt = n := by
  rw [Int64.toInt_minValue] at hlo
  rw [Int64.toInt_maxValue] at hhi
  exact Int64.toInt_ofInt_of_le hlo (by omega)

theorem int64?_eq_some_iff {n : Int} {i : Int64} : int64? n = some i ↔
    Int64.minValue.toInt ≤ n ∧ n ≤ Int64.maxValue.toInt ∧ i = Int64.ofInt n := by
  unfold int64?
  rw [Option.ite_none_right_eq_some, and_assoc, Option.some.injEq, eq_comm (a := i)]

theorem toInt_of_int64? {n : Int} {i : Int64} (h : int64? n = some i) : i.toInt = n := by
  obtain ⟨hlo, hhi, rfl⟩ := int64?_eq_some_iff.mp h
  exact toInt_ofInt hlo hhi

/-- An integer of 64 bits is found again by its value. -/
theorem int64?_toInt (i : Int64) : int64? i.toInt = some i := by
  refine int64?_eq_some_iff.mpr ⟨?_, ?_, (Int64.ofInt_toInt i).symm⟩
  · rw [Int64.toInt_minValue]
    exact Int64.le_toInt i
  · rw [Int64.toInt_maxValue]
    have := Int64.toInt_lt i
    omega

theorem exists_of_isFinite {negative : Bool} {d : Decimal}
    (h : (Binary64.ofDecimal negative d).isFinite) :
    ∃ m, Binary64.ofDecimal negative d = .finite negative m := by
  unfold Binary64.ofDecimal at h ⊢
  cases hm : Magnitude.ofDecimal? d with
  | some m => exact ⟨m, rfl⟩
  | none =>
    rw [hm] at h
    exact absurd h (by simp [Binary64.isFinite])

theorem wellFormed_of_ofNumeral? {n : Numeral} {operand : Operand} (hn : n.negative = false)
    (h : ofNumeral? n = some operand) : operand.WellFormed := by
  unfold ofNumeral? at h
  split at h
  · -- an integer is read without a sign, so that it is a natural number
    rename_i i hi
    cases h
    rw [Option.bind_eq_some_iff] at hi
    obtain ⟨value, hvalue, hi⟩ := hi
    show 0 ≤ i.toInt
    rw [toInt_of_int64? hi]
    unfold Numeral.integer? at hvalue
    split at hvalue
    · simp only [hn, Bool.false_eq_true, if_false, Option.some.injEq] at hvalue
      omega
    · exact absurd hvalue (by simp)
  · rw [Option.ite_none_right_eq_some] at h
    obtain ⟨hfinite, h⟩ := h
    rw [← Option.some.inj h]
    rw [Numeral.nearest, hn] at hfinite ⊢
    exact exists_of_isFinite hfinite

theorem wellFormed_ofWord {word : String} (h : Token.IsWord word) : (ofWord word).WellFormed := by
  unfold ofWord
  split
  · rename_i number hnumber
    rw [Option.bind_eq_some_iff] at hnumber
    obtain ⟨n, hn, hnumber⟩ := hnumber
    exact wellFormed_of_ofNumeral? (Numeral.negative_of_ofWord? h.ne_minus hn) hnumber
  · split
    · trivial
    · exact h.settled_quoted

/-! ### Display -/

theorem ofWord_text {n : Numeral} (hn : n.HasDigits Char.isDigit) {operand : Operand}
    (h : ofNumeral? n = some operand) : ofWord (String.ofList n.text) = operand := by
  have hread : Numeral.ofWord? n.text = some n := Numeral.ofWord?_eq_some_iff.mpr ⟨rfl, hn⟩
  unfold ofWord
  rw [String.toList_ofList, hread, Option.bind_some, h]

theorem isWord_unsignedText {n : Numeral} (h : n.HasDigits Char.isDigit) :
    Token.IsWord (String.ofList n.unsignedText) := by
  refine ⟨by simp [Numeral.unsignedText, h.whole_ne_nil], ?_⟩
  intro c hc
  rw [String.toList_ofList] at hc
  rcases Numeral.mem_unsignedText h hc with hdigit | rfl
  · exact Token.isWordChar_of_isDigit hdigit
  · decide

/-- The numeral that an integer is displayed as. -/
def integerNumeral (n : Int64) : Numeral :=
  ⟨decide (n.toInt < 0), Nat.toDigits 10 n.toInt.natAbs, none⟩

theorem hasDigits_integerNumeral (n : Int64) : (integerNumeral n).HasDigits Char.isDigit :=
  ⟨Nat.toDigits_ne_nil, by simp [integerNumeral], fun c hc => by
    rw [integerNumeral, Option.getD_none, List.append_nil] at hc
    exact Nat.isDigit_of_mem_toDigits (by decide) (by decide) hc⟩

theorem text_integerNumeral (n : Int64) :
    Text.integer n.toInt = String.ofList (integerNumeral n).text := by
  simp [Text.integer, Numeral.text, Numeral.unsignedText, integerNumeral]

theorem ofNumeral?_integerNumeral (n : Int64) :
    ofNumeral? (integerNumeral n) = some (.integer n) := by
  have hvalue : (integerNumeral n).integer? = some n.toInt := by
    unfold Numeral.integer? integerNumeral
    simp only [Nat.ofDigitChars_ten_toDigits, decide_eq_true_eq]
    split <;> congr 1 <;> omega
  rw [ofNumeral?, hvalue, Option.bind_some, int64?_toInt]

/-- The numeral that a finite number is displayed as. -/
theorem exists_numeral_of_real (negative : Bool) (m : Magnitude) : ∃ n : Numeral,
    n.negative = negative ∧ n.HasDigits Char.isDigit ∧
      Binary64.text (.finite negative m) = String.ofList n.text ∧
      ofNumeral? n = some (.real (.finite negative m)) := by
  obtain ⟨whole, fraction, hpointed, hread⟩ := (Binary64.decimal m).exists_isPointed
  -- the digits around the point are read as one decimal, and that decimal as the magnitude
  have hnearest : Numeral.nearest ⟨negative, whole, some fraction⟩ = .finite negative m := by
    unfold Numeral.nearest Binary64.ofDecimal Numeral.magnitude
    rw [Option.getD_some, hread.ofDecimal?_eq, Binary64.ofDecimal?_decimal]
    rfl
  refine ⟨⟨negative, whole, some fraction⟩, rfl,
    ⟨hread.whole_ne_nil, by simpa using hread.fraction_ne_nil, hread.isDigit⟩, ?_, ?_⟩
  · rw [Binary64.text, hpointed]
    rfl
  · unfold ofNumeral?
    rw [hnearest]
    rfl

theorem ofWord_integer (n : Int64) : ofWord (Text.integer n.toInt) = .integer n := by
  rw [text_integerNumeral]
  exact ofWord_text (hasDigits_integerNumeral n) (ofNumeral?_integerNumeral n)

theorem ofWord_real (negative : Bool) (m : Magnitude) :
    ofWord (Binary64.text (.finite negative m)) = .real (.finite negative m) := by
  obtain ⟨n, -, hdigits, htext, hnumeral⟩ := exists_numeral_of_real negative m
  rw [htext]
  exact ofWord_text hdigits hnumeral

/-- Integers, truth values and finite numbers, whatever their sign, are read from what they are
displayed as, and each is typed as what it was: a whole number does not turn into an integer. -/
theorem ofWord_display_of_finite :
    (∀ n : Int64, ofWord (display (.integer n)) = .integer n) ∧
      (∀ b : Bool, ofWord (display (.boolean b)) = .boolean b) ∧
      ∀ (negative : Bool) (m : Magnitude),
        ofWord (display (.real (.finite negative m))) = .real (.finite negative m) := by
  refine ⟨ofWord_integer, fun b => ?_, ofWord_real⟩
  cases b with
  | false => rfl
  | true => rfl

theorem isWord_integer {n : Int64} (h : 0 ≤ n.toInt) : Token.IsWord (Text.integer n.toInt) := by
  have hword := isWord_unsignedText (hasDigits_integerNumeral n)
  rw [text_integerNumeral]
  simpa [Numeral.text, integerNumeral, Int.not_lt.mpr h] using hword

theorem isWord_real (m : Magnitude) : Token.IsWord (Binary64.text (.finite false m)) := by
  obtain ⟨n, hsign, hdigits, htext, -⟩ := exists_numeral_of_real false m
  have hword := isWord_unsignedText hdigits
  rw [htext]
  simpa [Numeral.text, hsign] using hword

/-- The operands that are not texts are displayed as words, and read from them. -/
theorem ofWord_display {operand : Operand} (h : operand.WellFormed)
    (htext : ∀ s, operand ≠ .text s) :
    Token.IsWord operand.display ∧ ofWord operand.display = operand := by
  cases operand with
  | text s => exact absurd rfl (htext s)
  | integer n => exact ⟨isWord_integer h, ofWord_integer n⟩
  | real x =>
    obtain ⟨m, rfl⟩ := h
    exact ⟨isWord_real m, ofWord_real false m⟩
  | boolean b =>
    cases b with
    | false => exact ⟨Token.isWord_of_all (by decide) (by decide), rfl⟩
    | true => exact ⟨Token.isWord_of_all (by decide) (by decide), rfl⟩

end Operand

end ScimQuery
