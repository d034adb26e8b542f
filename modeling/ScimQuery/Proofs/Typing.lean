import ScimQuery.Proofs.Nearest
import ScimQuery.Proofs.Operands

/-!
# The types of words

A word is typed by the value of its numeral and not by the way in which it is read: `IsInteger` and
`IsReal` say by rational numbers which integer of 64 bits or which binary number a word denotes. The
four types of a word are characterised in `ofWord_typing`.

A program may find numerals by a pattern that knows digits of all scripts, and then read them by
functions that know ASCII digits only (`NumberReaders`). No word is typed differently by it
(`NumberReaders.ofWord_eq`), since a word with other digits is refused by each of these functions.
-/

namespace ScimQuery

/-! ### Values of numerals -/

namespace Numeral

/-- The absolute value of a numeral: its digits, of which those behind the point are tenths,
hundredths and so on. -/
def value (n : Numeral) : ℚ :=
  Nat.ofDigitChars 10 n.whole 0 +
    Nat.ofDigitChars 10 (n.fraction.getD []) 0 / 10 ^ (n.fraction.getD []).length

/-- The number that a numeral denotes. -/
def rational (n : Numeral) : ℚ := if n.negative then -n.value else n.value

theorem value_magnitude (n : Numeral) : n.magnitude.value = n.value := by
  have hpow : (10 : ℚ) ^ (n.fraction.getD []).length ≠ 0 := by positivity
  unfold Decimal.value magnitude value
  simp only [Nat.ofDigitChars_append, zpow_neg, zpow_natCast]
  rw [Nat.ofDigitChars_eq_ofDigitChars_zero]
  push_cast
  field_simp

theorem nearest_eq_finite_iff {n : Numeral} {negative : Bool} {m : Magnitude} :
    n.nearest = .finite negative m ↔ negative = n.negative ∧ m.IsNearest n.value := by
  rw [← value_magnitude, ← Magnitude.ofDecimal?_eq_some_iff, nearest, Binary64.ofDecimal]
  cases Magnitude.ofDecimal? n.magnitude with
  | none => simp
  | some m' => simp [eq_comm]

theorem integer?_eq_some_iff {n : Numeral} {i : ℤ} :
    n.integer? = some i ↔ n.fraction = none ∧ (i : ℚ) = n.rational := by
  unfold integer? rational value
  cases n.fraction with
  | some fraction => simp
  | none =>
    have hcast : ∀ j : ℤ, j = i ↔ (i : ℚ) = (j : ℚ) := fun j => by rw [Int.cast_inj, eq_comm]
    simp only [Option.some.injEq, hcast]
    cases n.negative with
    | false => simp
    | true => simp

/-! ### Characters of numerals -/

section Characters

variable {n : Numeral} (h : n.HasDigits Char.isDigit)

include h

/-- No character of a numeral is a letter, and none is outside ASCII. -/
theorem toNat_le_of_mem_text {c : Char} (hc : c ∈ n.text) : c.toNat ≤ 57 := by
  rcases mem_text h hc with hdigit | rfl | rfl
  · exact (Char.isDigit_iff_toNat.mp hdigit).2
  · decide
  · decide

theorem point_mem_text_iff : '.' ∈ n.text ↔ n.fraction ≠ none := by
  have hwhole : '.' ∉ n.whole := fun hc =>
    absurd (h.isDigit '.' (List.mem_append_left _ hc)) (by decide)
  cases hfraction : n.fraction with
  | none => cases hn : n.negative <;> simp [text, unsignedText, hfraction, hn, hwhole]
  | some fraction => simp [text, unsignedText, hfraction]

end Characters

theorem ofWord?_eq_none_of_wide {word : List Char} {c : Char} (hc : c ∈ word)
    (hwide : 128 ≤ c.toNat) : ofWord? word = none := by
  refine Option.eq_none_iff_forall_ne_some.mpr fun n h => ?_
  obtain ⟨htext, hn⟩ := ofWord?_eq_some_iff.mp h
  have hle := toNat_le_of_mem_text hn (htext ▸ hc)
  omega

/-- A numeral has the digits of each class that agrees with another one on its characters. -/
theorem HasDigits.congr {isDigit isDigit' : Char → Bool} {n : Numeral} (hn : n.HasDigits isDigit)
    (h : ∀ c ∈ n.text, isDigit c = isDigit' c) : n.HasDigits isDigit' := by
  refine ⟨hn.whole_ne_nil, hn.fraction_ne_nil, fun c hc => ?_⟩
  have htext : c ∈ n.text := by
    rw [text, unsignedText]
    rcases List.mem_append.mp hc with hc | hc
    · simp [hc]
    · cases hfraction : n.fraction <;> simp_all
  rw [← h c htext]
  exact hn.isDigit c hc

end Numeral

namespace Operand

/-! ### What a word denotes -/

/-- Whether a word denotes an integer of 64 bits: it is a numeral without a point, and leading zeros
do not matter. -/
def IsInteger (word : String) (i : Int64) : Prop :=
  ∃ n : Numeral, n.text = word.toList ∧ n.HasDigits Char.isDigit ∧ n.fraction = none ∧
    (i.toInt : ℚ) = n.rational

/-- Whether a word denotes a finite binary number: it is a numeral, and the number is the nearest
one to it. -/
def IsReal (word : String) (x : Binary64) : Prop :=
  ∃ (n : Numeral) (m : Magnitude), n.text = word.toList ∧ n.HasDigits Char.isDigit ∧
    m.IsNearest n.value ∧ x = .finite n.negative m

/-- Whether a word names a truth value, in either case of each letter. -/
def IsBoolean (word : String) (b : Bool) : Prop :=
  Text.lower word = if b then "true" else "false"

theorem integer_eq_some_iff {n : Numeral} {i : Int64} :
    n.integer?.bind int64? = some i ↔ n.fraction = none ∧ (i.toInt : ℚ) = n.rational := by
  rw [← Numeral.integer?_eq_some_iff, Option.bind_eq_some_iff]
  constructor
  · rintro ⟨value, hvalue, hi⟩
    rw [hvalue, toInt_of_int64? hi]
  · intro h
    exact ⟨i.toInt, h, int64?_toInt i⟩

theorem isFinite_iff {x : Binary64} : x.isFinite ↔ ∃ negative m, x = .finite negative m := by
  cases x <;> simp [Binary64.isFinite]

theorem ofNumeral?_eq_integer_iff {n : Numeral} {i : Int64} :
    ofNumeral? n = some (.integer i) ↔ n.fraction = none ∧ (i.toInt : ℚ) = n.rational := by
  rw [← integer_eq_some_iff, ofNumeral?]
  cases n.integer?.bind int64? with
  | some j => simp
  | none => simp

theorem ofNumeral?_eq_real_iff {n : Numeral} {x : Binary64} :
    ofNumeral? n = some (.real x) ↔ (∀ i, ofNumeral? n ≠ some (.integer i)) ∧
      ∃ m : Magnitude, m.IsNearest n.value ∧ x = .finite n.negative m := by
  have hnearest : (n.nearest.isFinite ∧ n.nearest = x) ↔
      ∃ m : Magnitude, m.IsNearest n.value ∧ x = .finite n.negative m := by
    constructor
    · rintro ⟨hfinite, rfl⟩
      obtain ⟨negative, m, hx⟩ := isFinite_iff.mp hfinite
      obtain ⟨rfl, hm⟩ := Numeral.nearest_eq_finite_iff.mp hx
      exact ⟨m, hm, hx⟩
    · rintro ⟨m, hm, rfl⟩
      have hx := Numeral.nearest_eq_finite_iff.mpr ⟨rfl, hm⟩
      exact ⟨isFinite_iff.mpr ⟨_, _, hx⟩, hx⟩
  rw [← hnearest, ofNumeral?]
  cases n.integer?.bind int64? with
  | some j => simp
  | none => simp

theorem exists_of_ofNumeral? {n : Numeral} {operand : Operand} (h : ofNumeral? n = some operand) :
    (∃ i, operand = .integer i) ∨ ∃ x, operand = .real x := by
  unfold ofNumeral? at h
  split at h
  · exact .inl ⟨_, (Option.some.inj h).symm⟩
  · rw [Option.ite_none_right_eq_some] at h
    exact .inr ⟨_, (Option.some.inj h.2).symm⟩

/-! ### Numbers -/

/-- The number that a word denotes. -/
def number? (word : String) : Option Operand := (Numeral.ofWord? word.toList).bind ofNumeral?

theorem ofWord_eq (word : String) :
    ofWord word = (number? word).getD ((boolean? word).elim (.text word) .boolean) := by
  unfold ofWord
  rw [← number?]
  cases number? word with
  | some number => rfl
  | none => cases boolean? word <;> rfl

section

variable {word : String}

theorem number?_eq_some_iff {operand : Operand} : number? word = some operand ↔
    ∃ n : Numeral, n.text = word.toList ∧ n.HasDigits Char.isDigit ∧
      ofNumeral? n = some operand := by
  simp only [number?, Option.bind_eq_some_iff, Numeral.ofWord?_eq_some_iff, and_assoc]

theorem number?_eq_integer_iff {i : Int64} :
    number? word = some (.integer i) ↔ IsInteger word i := by
  simp only [number?_eq_some_iff, ofNumeral?_eq_integer_iff, IsInteger]

theorem number?_eq_real_iff {x : Binary64} :
    number? word = some (.real x) ↔ (∀ i, ¬ IsInteger word i) ∧ IsReal word x := by
  constructor
  · intro h
    refine ⟨fun i hi => ?_, ?_⟩
    · rw [← number?_eq_integer_iff, h] at hi
      exact absurd hi (by simp)
    · obtain ⟨n, htext, hn, hnumeral⟩ := number?_eq_some_iff.mp h
      obtain ⟨-, m, hm, hx⟩ := ofNumeral?_eq_real_iff.mp hnumeral
      exact ⟨n, m, htext, hn, hm, hx⟩
  · rintro ⟨hinteger, n, m, htext, hn, hm, hx⟩
    have hnumeral : ofNumeral? n = some (.real x) := by
      refine ofNumeral?_eq_real_iff.mpr ⟨fun i hi => ?_, m, hm, hx⟩
      exact hinteger i (number?_eq_integer_iff.mp (number?_eq_some_iff.mpr ⟨n, htext, hn, hi⟩))
    exact number?_eq_some_iff.mpr ⟨n, htext, hn, hnumeral⟩

theorem number?_eq_none_iff :
    number? word = none ↔ (∀ i, ¬ IsInteger word i) ∧ ∀ x, ¬ IsReal word x := by
  constructor
  · intro h
    have hinteger : ∀ i, ¬ IsInteger word i := fun i hi => by
      rw [← number?_eq_integer_iff, h] at hi
      exact absurd hi (by simp)
    refine ⟨hinteger, fun x hx => ?_⟩
    have hreal := number?_eq_real_iff.mpr ⟨hinteger, hx⟩
    rw [h] at hreal
    exact absurd hreal (by simp)
  · rintro ⟨hinteger, hreal⟩
    cases hnumber : number? word with
    | none => rfl
    | some operand =>
      obtain ⟨n, -, -, hnumeral⟩ := number?_eq_some_iff.mp hnumber
      rcases exists_of_ofNumeral? hnumeral with ⟨i, rfl⟩ | ⟨x, rfl⟩
      · exact absurd (number?_eq_integer_iff.mp hnumber) (hinteger i)
      · exact absurd (number?_eq_real_iff.mp hnumber).2 (hreal x)

/-! ### Truth values -/

theorem boolean?_eq_some_iff {b : Bool} : boolean? word = some b ↔ IsBoolean word b := by
  have htrue : Text.lower "true" = "true" := by decide
  have hfalse : Text.lower "false" = "false" := by decide
  unfold boolean? IsBoolean Text.equalIgnoringCase
  rw [htrue, hfalse]
  by_cases ht : Text.lower word = "true"
  · cases b <;> simp [ht]
  · by_cases hf : Text.lower word = "false"
    · cases b <;> simp [hf]
    · cases b <;> simp [ht, hf]

/-- All characters of the name of a truth value are letters of ASCII. -/
theorem IsBoolean.toNat_bounds {b : Bool} (h : IsBoolean word b) {c : Char}
    (hc : c ∈ word.toList) : 65 ≤ c.toNat ∧ c.toNat ≤ 122 := by
  have hletters : (Text.lower word).toList.all fun d => 97 ≤ d.toNat && d.toNat ≤ 122 := by
    rw [h]
    cases b with
    | false => decide
    | true => decide
  rw [Text.toList_lower, List.all_map] at hletters
  have hletter := List.all_eq_true.mp hletters c hc
  by_cases hupper : 'A' ≤ c ∧ c ≤ 'Z'
  · have hcapital := Text.isCapital_iff.mp hupper
    omega
  · rw [Function.comp_apply, if_neg hupper] at hletter
    simp only [Bool.and_eq_true, decide_eq_true_eq] at hletter
    omega

theorem not_isBoolean_of_text {n : Numeral} (hn : n.HasDigits Char.isDigit)
    (htext : n.text = word.toList) (b : Bool) : ¬ IsBoolean word b := by
  intro h
  obtain ⟨c, whole, hwhole⟩ := List.exists_cons_of_ne_nil hn.whole_ne_nil
  have hc : c ∈ n.text := by simp [Numeral.text, Numeral.unsignedText, hwhole]
  have hle := Numeral.toNat_le_of_mem_text hn hc
  have hletter := h.toNat_bounds (htext ▸ hc)
  omega

theorem not_isBoolean_of_wide {c : Char} (hc : c ∈ word.toList) (hwide : 128 ≤ c.toNat) (b : Bool) :
    ¬ IsBoolean word b := by
  intro h
  have hletter := h.toNat_bounds hc
  omega

theorem ofWord_eq_boolean_iff {b : Bool} : ofWord word = .boolean b ↔ IsBoolean word b := by
  rw [ofWord_eq, ← boolean?_eq_some_iff]
  cases hnumber : number? word with
  | some operand =>
    obtain ⟨n, htext, hn, hnumeral⟩ := number?_eq_some_iff.mp hnumber
    have hboolean := not_isBoolean_of_text hn htext b
    rw [← boolean?_eq_some_iff] at hboolean
    rcases exists_of_ofNumeral? hnumeral with ⟨i, rfl⟩ | ⟨x, rfl⟩
    · simpa using hboolean
    · simpa using hboolean
  | none => cases boolean? word <;> simp

/-! ### Texts -/

theorem number?_eq_none_of_wide {c : Char} (hc : c ∈ word.toList) (hwide : 128 ≤ c.toNat) :
    number? word = none := by
  rw [number?, Numeral.ofWord?_eq_none_of_wide hc hwide, Option.bind_none]

theorem ofWord_eq_text_iff {s : String} : ofWord word = .text s ↔
    s = word ∧ number? word = none ∧ ∀ b, ¬ IsBoolean word b := by
  have hboolean : boolean? word = none ↔ ∀ b, ¬ IsBoolean word b := by
    simp only [← boolean?_eq_some_iff, Option.eq_none_iff_forall_ne_some]
  rw [ofWord_eq, ← hboolean]
  cases hnumber : number? word with
  | some operand =>
    obtain ⟨n, -, -, hnumeral⟩ := number?_eq_some_iff.mp hnumber
    rcases exists_of_ofNumeral? hnumeral with ⟨i, rfl⟩ | ⟨x, rfl⟩
    · simp
    · simp
  | none =>
    cases boolean? word with
    | some b => simp
    | none => simp [eq_comm]

/-- An integer of 64 bits is in the range of the binary numbers. -/
theorem value_lt_of_integer {n : Numeral} {i : Int64} (h : (i.toInt : ℚ) = n.rational) :
    n.value < 2 ^ 1024 - 2 ^ 970 := by
  have hvalue : n.value ≤ |(i.toInt : ℚ)| := by
    rw [h, Numeral.rational]
    split_ifs
    · rw [abs_neg]
      exact le_abs_self n.value
    · exact le_abs_self n.value
  have hint : |(i.toInt : ℚ)| ≤ 2 ^ 63 := by
    have hlo := Int64.le_toInt i
    have hhi := Int64.toInt_lt i
    exact_mod_cast abs_le.mpr ⟨hlo, hhi.le⟩
  calc n.value ≤ 2 ^ 63 := hvalue.trans hint
    _ ≤ 2 ^ 970 := pow_le_pow_right₀ one_le_two (by decide)
    _ < (2 ^ 54 - 1) * 2 ^ 970 := lt_mul_of_one_lt_left (by positivity) (by norm_num)
    _ = 2 ^ 1024 - 2 ^ 970 := Magnitude.limit_eq.symm

/-- A numeral stays a text if its value is half a step or more above all binary numbers. -/
theorem ofWord_eq_text_iff_of_numeral {n : Numeral} (hn : n.HasDigits Char.isDigit)
    (htext : n.text = word.toList) :
    ofWord word = .text word ↔ 2 ^ 1024 - 2 ^ 970 ≤ n.value := by
  have hread : ∀ n' : Numeral, n'.text = word.toList → n'.HasDigits Char.isDigit → n' = n := by
    intro n' htext' hn'
    have hsome := Numeral.ofWord?_eq_some_iff.mpr ⟨htext', hn'⟩
    rw [Numeral.ofWord?_eq_some_iff.mpr ⟨htext, hn⟩] at hsome
    exact (Option.some.inj hsome).symm
  have hrange : (∃ m : Magnitude, m.IsNearest n.value) ↔ n.value < 2 ^ 1024 - 2 ^ 970 := by
    rw [← n.value_magnitude]
    exact Magnitude.exists_isNearest_iff
  rw [ofWord_eq_text_iff, ← not_lt, ← hrange]
  constructor
  · rintro ⟨-, hnone, -⟩ ⟨m, hm⟩
    exact (number?_eq_none_iff.mp hnone).2 _ ⟨n, m, htext, hn, hm, rfl⟩
  · intro hnearest
    refine ⟨rfl, number?_eq_none_iff.mpr ⟨?_, ?_⟩, not_isBoolean_of_text hn htext⟩
    · rintro i ⟨n', htext', hn', -, hi⟩
      obtain rfl := hread n' htext' hn'
      exact hnearest (hrange.mpr (value_lt_of_integer hi))
    · rintro x ⟨n', m, htext', hn', hm, -⟩
      obtain rfl := hread n' htext' hn'
      exact hnearest ⟨m, hm⟩

end

end Operand

/-! ### Readers of numbers -/

/-- What a program may have to type words with: a class of digits for its pattern of numerals, which
may have the digits of all scripts, and functions that read integers and binary numbers. These are
exact, and know ASCII digits only. -/
structure NumberReaders where
  isDigit : Char → Bool
  integer? : String → Option Int64
  real? : String → Option Binary64
  isDigit_ascii : ∀ c : Char, c.toNat < 128 → isDigit c = c.isDigit
  integer?_numeral : ∀ n : Numeral, n.HasDigits Char.isDigit → n.fraction = none → ∀ i : Int64,
    integer? (String.ofList n.text) = some i ↔ (i.toInt : ℚ) = n.rational
  real?_numeral : ∀ n : Numeral, n.HasDigits Char.isDigit → ∀ negative m,
    real? (String.ofList n.text) = some (.finite negative m) ↔
      negative = n.negative ∧ m.IsNearest n.value
  integer?_wide : ∀ word : String, (∃ c ∈ word.toList, 128 ≤ c.toNat) → integer? word = none
  real?_wide : ∀ word : String, (∃ c ∈ word.toList, 128 ≤ c.toNat) → real? word = none

namespace NumberReaders

/-- The number that is read from a word. If the pattern fits, an integer is tried first, unless
there is a point, and then a finite binary number. -/
def number? (readers : NumberReaders) (word : String) : Option Operand :=
  if (Numeral.read? readers.isDigit word.toList).isSome then
    ((if '.' ∈ word.toList then none else readers.integer? word).map .integer).or
      (((readers.real? word).filter Binary64.isFinite).map .real)
  else none

/-- The operand that an unquoted word stands for. -/
def ofWord (readers : NumberReaders) (word : String) : Operand :=
  (readers.number? word).getD ((Operand.boolean? word).elim (.text word) .boolean)

/-- Digits are those of ASCII and of the Arabic script in the pattern, and those of ASCII only where
numbers are read. -/
def twoScripts : NumberReaders where
  isDigit c := c.isDigit || (0x660 ≤ c.toNat && c.toNat ≤ 0x669)
  integer? word := (Numeral.ofWord? word.toList).bind fun n => n.integer?.bind Operand.int64?
  real? word := (Numeral.ofWord? word.toList).map Numeral.nearest
  isDigit_ascii c hc := by
    have hother : ¬ 0x660 ≤ c.toNat := by omega
    simp [hother]
  integer?_numeral n hn hfraction i := by
    rw [String.toList_ofList, Numeral.ofWord?_eq_some_iff.mpr ⟨rfl, hn⟩, Option.bind_some,
      Operand.integer_eq_some_iff]
    simp [hfraction]
  real?_numeral n hn negative m := by
    rw [String.toList_ofList, Numeral.ofWord?_eq_some_iff.mpr ⟨rfl, hn⟩, Option.map_some,
      Option.some.injEq, Numeral.nearest_eq_finite_iff]
  integer?_wide word := by
    rintro ⟨c, hc, hwide⟩
    rw [Numeral.ofWord?_eq_none_of_wide hc hwide, Option.bind_none]
  real?_wide word := by
    rintro ⟨c, hc, hwide⟩
    rw [Numeral.ofWord?_eq_none_of_wide hc hwide, Option.map_none]

section

variable (readers : NumberReaders) {word : String}

theorem number?_eq_none_of_wide {c : Char} (hc : c ∈ word.toList) (hwide : 128 ≤ c.toNat) :
    readers.number? word = none := by
  rw [number?, readers.integer?_wide word ⟨c, hc, hwide⟩, readers.real?_wide word ⟨c, hc, hwide⟩]
  simp

/-- A word of ASCII characters is a numeral for the pattern if it is one with ASCII digits. -/
theorem read?_eq_ofWord? (h : ∀ c ∈ word.toList, c.toNat < 128) :
    Numeral.read? readers.isDigit word.toList = Numeral.ofWord? word.toList := by
  refine Option.ext fun n => ?_
  rw [Numeral.read?_eq_some_iff (readers.isDigit_ascii '-' (by decide))
    (readers.isDigit_ascii '.' (by decide)), Numeral.ofWord?_eq_some_iff]
  refine and_congr_right fun htext => ?_
  have hagree : ∀ c ∈ n.text, readers.isDigit c = c.isDigit := fun c hc =>
    readers.isDigit_ascii c (h c (htext ▸ hc))
  exact ⟨fun hn => hn.congr hagree, fun hn => hn.congr fun c hc => (hagree c hc).symm⟩

theorem number?_eq_of_numeral {n : Numeral} (hn : n.HasDigits Char.isDigit)
    (htext : n.text = word.toList) (hread : Numeral.read? readers.isDigit word.toList = some n) :
    readers.number? word = Operand.ofNumeral? n := by
  have hword : String.ofList n.text = word := by rw [htext, String.ofList_toList]
  have hinteger : (if '.' ∈ word.toList then none else readers.integer? word) =
      n.integer?.bind Operand.int64? := by
    refine Option.ext fun i => ?_
    rw [Operand.integer_eq_some_iff, ← htext, Option.ite_none_left_eq_some,
      Numeral.point_mem_text_iff hn, not_not]
    refine and_congr_right fun hfraction => ?_
    rw [← hword]
    exact readers.integer?_numeral n hn hfraction i
  have hsome : ∀ negative m, readers.real? word = some (.finite negative m) ↔
      n.nearest = .finite negative m := by
    intro negative m
    rw [← hword, readers.real?_numeral n hn, Numeral.nearest_eq_finite_iff]
  have hreal : (readers.real? word).filter Binary64.isFinite =
      if n.nearest.isFinite then some n.nearest else none := by
    refine Option.ext fun x => ?_
    rw [Option.filter_eq_some_iff, Option.ite_none_right_eq_some, Option.some.injEq]
    constructor
    · rintro ⟨hx, hfinite⟩
      obtain ⟨negative, m, rfl⟩ := Operand.isFinite_iff.mp hfinite
      have hnearest := (hsome negative m).mp hx
      exact ⟨by rw [hnearest, hfinite], hnearest⟩
    · rintro ⟨hfinite, rfl⟩
      obtain ⟨negative, m, hnearest⟩ := Operand.isFinite_iff.mp hfinite
      exact ⟨by rw [(hsome negative m).mpr hnearest, hnearest], hfinite⟩
  rw [number?, hread, Option.isSome_some, if_pos rfl, hinteger, hreal, Operand.ofNumeral?]
  cases n.integer?.bind Operand.int64? with
  | some i => rfl
  | none => by_cases hfinite : n.nearest.isFinite <;> simp [hfinite]

/-- The pattern and the readers find the same numbers as the numerals with ASCII digits. -/
theorem number?_eq (word : String) : readers.number? word = Operand.number? word := by
  by_cases hwide : ∃ c ∈ word.toList, 128 ≤ c.toNat
  · obtain ⟨c, hc, hwide⟩ := hwide
    rw [number?_eq_none_of_wide readers hc hwide, Operand.number?_eq_none_of_wide hc hwide]
  · have hread := readers.read?_eq_ofWord? fun c hc => by
      by_contra hge
      exact hwide ⟨c, hc, by omega⟩
    rw [Operand.number?]
    cases hnumeral : Numeral.ofWord? word.toList with
    | none => simp [number?, hread, hnumeral]
    | some n =>
      obtain ⟨htext, hn⟩ := Numeral.ofWord?_eq_some_iff.mp hnumeral
      exact readers.number?_eq_of_numeral hn htext (hread.trans hnumeral)

theorem ofWord_eq (word : String) : readers.ofWord word = Operand.ofWord word := by
  rw [ofWord, number?_eq, Operand.ofWord_eq]

end

end NumberReaders

/-! ### The types of words -/

namespace Operand

/-- The type of a word follows from what it denotes: an integer if there is one of 64 bits, or else
the nearest binary number, or a truth value, and a text if it is none of these. A word with a
character outside ASCII is a text, and a numeral is one if its value is out of range. A pattern that
knows other digits does not change that. -/
theorem ofWord_typing (word : String) :
    (∀ i, ofWord word = .integer i ↔ IsInteger word i) ∧
      (∀ x, ofWord word = .real x ↔ (∀ i, ¬ IsInteger word i) ∧ IsReal word x) ∧
      (∀ b, ofWord word = .boolean b ↔ IsBoolean word b) ∧
      (∀ s, ofWord word = .text s ↔ s = word ∧ (∀ i, ¬ IsInteger word i) ∧
        (∀ x, ¬ IsReal word x) ∧ ∀ b, ¬ IsBoolean word b) ∧
      ((∃ c ∈ word.toList, 128 ≤ c.toNat) → ofWord word = .text word) ∧
      (∀ n : Numeral, n.text = word.toList → n.HasDigits Char.isDigit →
        (ofWord word = .text word ↔ 2 ^ 1024 - 2 ^ 970 ≤ n.value)) ∧
      ∀ readers : NumberReaders, readers.ofWord word = ofWord word := by
  refine ⟨fun i => ?_, fun x => ?_, fun b => ofWord_eq_boolean_iff, fun s => ?_, ?_,
    fun n htext hn => ofWord_eq_text_iff_of_numeral hn htext, fun readers => readers.ofWord_eq word⟩
  · rw [← number?_eq_integer_iff, ofWord_eq]
    cases number? word with
    | some operand => simp
    | none => cases boolean? word <;> simp
  · rw [← number?_eq_real_iff, ofWord_eq]
    cases number? word with
    | some operand => simp
    | none => cases boolean? word <;> simp
  · rw [ofWord_eq_text_iff, number?_eq_none_iff, and_assoc]
  · rintro ⟨c, hc, hwide⟩
    exact ofWord_eq_text_iff.mpr
      ⟨rfl, number?_eq_none_of_wide hc hwide, not_isBoolean_of_wide hc hwide⟩

/-- A one of ASCII and an Arabic two fit the pattern, and stay a text. -/
theorem ofWord_typing_of_two_scripts :
    (Numeral.read? NumberReaders.twoScripts.isDigit "1\u0662".toList).isSome ∧
      NumberReaders.twoScripts.ofWord "1\u0662" = .text "1\u0662" := by
  obtain ⟨-, -, -, -, hwide, -, hreaders⟩ := ofWord_typing "1\u0662"
  exact ⟨by decide, (hreaders _).trans (hwide ⟨'\u0662', by decide, by decide⟩)⟩

/-- Leading zeros do not matter, and a zero without a point has no sign. -/
example : ofWord "-007" = .integer (-7) ∧ ofWord "-0" = .integer 0 := by decide

end Operand

end ScimQuery
