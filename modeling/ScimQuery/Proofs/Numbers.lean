import ScimQuery.Binary64.Text

/-!
# Numbers are read as they were written

Rounding a ratio depends on its value only (`ofRatio?_mul_right`), and so does reading a decimal:
any two decimals that agree on a common scale are read as the same magnitude (`ofDecimal?_eq`).
Hence a decimal with exactly the value of a magnitude is read as that magnitude, and the zeros and
the point that a text adds to a decimal do not matter.
-/

namespace ScimQuery

/-- The value of a decimal times a power of ten, which is a whole number if the power is large
enough. -/
def Decimal.numerator (d : Decimal) (scale : Nat) : Nat :=
  d.coefficient * Nat.pow 10 (d.exponent + scale).toNat

/-! ### Rounding -/

theorem roundHalfEven_mul_right {k : Nat} (hk : 0 < k) (num den : Nat) :
    roundHalfEven (num * k) (den * k) = roundHalfEven num den := by
  have hdiv : num * k / (den * k) = num / den := Nat.mul_div_mul_right num den hk
  have hmod : num * k % (den * k) = num % den * k := Nat.mul_mod_mul_right k num den
  have hlt : 2 * (num % den * k) < den * k ↔ 2 * (num % den) < den := by
    rw [← Nat.mul_assoc]
    exact Nat.mul_lt_mul_right hk
  have hgt : den * k < 2 * (num % den * k) ↔ den < 2 * (num % den) := by
    rw [← Nat.mul_assoc]
    exact Nat.mul_lt_mul_right hk
  simp only [roundHalfEven, hdiv, hmod, hlt, hgt]

theorem roundHalfEven_mul_self (q : Nat) {den : Nat} (h : 0 < den) :
    roundHalfEven (q * den) den = q := by
  simp [roundHalfEven, Nat.mul_div_cancel q h, Nat.mul_mod_left, h]

namespace Magnitude

theorem ofRatio?_congr {num den num' den' : Nat} (hq : num / den = num' / den')
    (hs : roundedSignificand num den = roundedSignificand num' den') :
    ofRatio? num den = ofRatio? num' den' := by
  simp only [ofRatio?, hq, hs]

/-- Rounding depends on the value of a ratio only. -/
theorem ofRatio?_mul_right {k : Nat} (hk : 0 < k) (num den : Nat) :
    ofRatio? (num * k) (den * k) = ofRatio? num den := by
  have hq : num * k / (den * k) = num / den := Nat.mul_div_mul_right num den hk
  refine ofRatio?_congr hq ?_
  rw [roundedSignificand, hq, Nat.mul_right_comm, roundHalfEven_mul_right hk]
  rfl

/-- A magnitude has as many bits beyond 53 as its exponent says. -/
theorem excessBits_units (m : Magnitude) : excessBits m.units = m.exponent := by
  obtain ⟨s, e, hlt, hnormal, hle⟩ := m
  have hlt' : s < 2 ^ 53 := hlt
  show (s * 2 ^ e).log2 - 52 = e
  rcases hnormal with rfl | hnormal
  · rw [Nat.pow_zero, Nat.mul_one]
    by_cases hs : s = 0
    · simp [hs]
    · have := (Nat.log2_lt hs).mpr hlt'
      omega
  · have hge : 2 ^ 52 ≤ s := hnormal
    have hpos : 0 < 2 ^ e := Nat.two_pow_pos e
    have hne : s * 2 ^ e ≠ 0 := by
      have : 0 < s * 2 ^ e := Nat.mul_pos (by omega) hpos
      omega
    have hlog : (s * 2 ^ e).log2 = 52 + e := by
      rw [Nat.log2_eq_iff hne, Nat.pow_add, Nat.add_right_comm, Nat.pow_add]
      exact ⟨Nat.mul_le_mul_right _ hge, (Nat.mul_lt_mul_right hpos).mpr hlt'⟩
    omega

/-- A ratio with exactly the value of a magnitude is that magnitude. -/
theorem ofRatio?_units (m : Magnitude) {k : Nat} (hk : 0 < k) :
    ofRatio? (m.units * k) k = some m := by
  have hone : ofRatio? (m.units * k) k = ofRatio? m.units 1 := by
    simpa using ofRatio?_mul_right hk m.units 1
  have hs : roundedSignificand m.units 1 = m.significand := by
    rw [roundedSignificand, Nat.div_one, excessBits_units, Nat.one_mul]
    exact roundHalfEven_mul_self m.significand (Nat.two_pow_pos m.exponent)
  rw [hone]
  simp only [ofRatio?, hs, Nat.div_one, excessBits_units, m.significand_lt, m.exponent_le,
    dite_true]

/-! ### Decimals -/

/-- A decimal is read as the ratio that it is on any scale which is fine enough. -/
theorem ofDecimal?_eq (d : Decimal) (scale : Nat) (h : 0 ≤ d.exponent + scale) :
    ofDecimal? d = ofRatio? (d.numerator scale * unitsPerOne) (Nat.pow 10 scale) := by
  have hpow : ∀ n : Nat, Nat.pow 10 n = 10 ^ n := fun n => rfl
  unfold ofDecimal? Decimal.ratio Decimal.numerator
  rw [hpow, hpow, hpow, hpow]
  split
  · rename_i hexponent
    have hsplit : (d.exponent + scale).toNat = d.exponent.toNat + scale := by omega
    have hpos : 0 < 10 ^ scale := Nat.pow_pos (by decide)
    rw [← ofRatio?_mul_right hpos _ 1, Nat.one_mul, hsplit, Nat.pow_add, Nat.mul_right_comm,
      Nat.mul_assoc d.coefficient]
  · rename_i hexponent
    have hpos : 0 < 10 ^ (d.exponent + scale).toNat := Nat.pow_pos (by decide)
    have hscale : 10 ^ scale = 10 ^ (-d.exponent).toNat * 10 ^ (d.exponent + scale).toNat := by
      rw [← Nat.pow_add]
      congr 1
      omega
    rw [← ofRatio?_mul_right hpos, Nat.mul_right_comm, hscale]

/-- Decimals that agree on some scale are read as the same magnitude. -/
theorem ofDecimal?_congr {d d' : Decimal} (scale : Nat) (h : 0 ≤ d.exponent + scale)
    (h' : 0 ≤ d'.exponent + scale) (heq : d.numerator scale = d'.numerator scale) :
    ofDecimal? d = ofDecimal? d' := by
  rw [ofDecimal?_eq d scale h, ofDecimal?_eq d' scale h', heq]

theorem ofDecimal?_normalize (d : Decimal) : ofDecimal? d.normalize = ofDecimal? d := by
  fun_induction Decimal.normalize d with
  | case1 d hzero =>
    exact ofDecimal?_congr d.exponent.natAbs (by simp) (by omega)
      (by simp [Decimal.numerator, hzero])
  | case2 d hzero hten ih =>
    rw [ih]
    refine ofDecimal?_congr d.exponent.natAbs (by simp only; omega) (by omega) ?_
    have hexponent : (d.exponent + 1 + d.exponent.natAbs).toNat =
        (d.exponent + d.exponent.natAbs).toNat + 1 := by omega
    have hcoefficient : d.coefficient / 10 * 10 = d.coefficient := by omega
    show d.coefficient / 10 * 10 ^ (d.exponent + 1 + d.exponent.natAbs).toNat =
      d.coefficient * 10 ^ (d.exponent + d.exponent.natAbs).toNat
    rw [hexponent, Nat.pow_succ', ← Nat.mul_assoc, hcoefficient]
  | case3 => rfl

/-! ### Decimals of magnitudes -/

theorem ofDecimal?_exactDecimal (m : Magnitude) : ofDecimal? m.exactDecimal = some m := by
  have hscale : (0 : Int) ≤ -(unitExponent : Int) + unitExponent := by omega
  have hzero : (-(unitExponent : Int) + unitExponent).toNat = 0 := by omega
  have hnumerator : m.exactDecimal.numerator unitExponent =
      m.units * Nat.pow 5 unitExponent * Nat.pow 10 0 := by
    rw [← hzero]
    rfl
  rw [ofDecimal?_eq _ unitExponent hscale, hnumerator]
  unfold unitsPerOne
  -- a variable from here on, since a power of this size is not to be computed with
  generalize unitExponent = n
  have hten : m.units * Nat.pow 5 n * Nat.pow 10 0 * Nat.pow 2 n = m.units * Nat.pow 10 n := by
    show m.units * 5 ^ n * 10 ^ 0 * 2 ^ n = m.units * 10 ^ n
    rw [Nat.pow_zero, Nat.mul_one, Nat.mul_assoc, ← Nat.mul_pow]
  rw [hten]
  exact ofRatio?_units m (Nat.pow_pos (by decide))

theorem ofDecimal?_of_withDigits? {tie : TieBreak} {m : Magnitude} {count : Nat} {d : Decimal}
    (h : m.withDigits? tie count = some d) : ofDecimal? d = some m := by
  unfold withDigits? at h
  have hreads := List.find?_some h
  exact beq_iff_eq.mp hreads

theorem ofDecimal?_zero : ofDecimal? ⟨0, 0⟩ = some zero := by
  have hunits : zero.units * 1 = 0 := by decide
  have hexact := ofRatio?_units zero Nat.one_pos
  rw [hunits] at hexact
  have hnumerator : Decimal.numerator ⟨0, 0⟩ 0 = 0 := by decide
  rw [ofDecimal?_eq ⟨0, 0⟩ 0 (by decide), hnumerator, Nat.zero_mul]
  exact hexact

/-- The shortest decimal of a magnitude is read as that magnitude. -/
theorem ofDecimal?_shortest (tie : TieBreak) (m : Magnitude) :
    ofDecimal? (m.shortest tie) = some m := by
  unfold shortest
  split
  · rename_i hzero
    subst hzero
    exact ofDecimal?_zero
  · cases hfound : (List.range' 1 17).findSome? (m.withDigits? tie) with
    | none => rw [Option.getD_none, ofDecimal?_normalize, ofDecimal?_exactDecimal]
    | some d =>
      rw [Option.getD_some]
      obtain ⟨count, -, hcount⟩ := List.exists_of_findSome?_eq_some hfound
      exact ofDecimal?_of_withDigits? hcount

end Magnitude

/-- A magnitude is read from the decimal that it is written as. -/
theorem Binary64.ofDecimal?_decimal (m : Magnitude) :
    Magnitude.ofDecimal? (decimal m) = some m := by
  unfold decimal
  split
  · rename_i hwhole
    have hunits : m.units / Magnitude.unitsPerOne * Magnitude.unitsPerOne = m.units :=
      Nat.div_mul_cancel (Nat.dvd_of_mod_eq_zero hwhole)
    have hscale : (0 : Int) ≤ 0 + (0 : Nat) := by decide
    have hnumerator : Decimal.numerator ⟨m.units / Magnitude.unitsPerOne, 0⟩ 0 =
        m.units / Magnitude.unitsPerOne := Nat.mul_one _
    have hexact := Magnitude.ofRatio?_units m Nat.one_pos
    rw [Nat.mul_one] at hexact
    rw [Magnitude.ofDecimal?_eq _ 0 hscale, hnumerator, hunits]
    exact hexact
  · exact Magnitude.ofDecimal?_shortest .up m

/-! ### Positional notation -/

namespace Decimal

/-- Two runs of digits that are read as a decimal, the point between them left out. -/
structure IsPointed (d : Decimal) (whole fraction : List Char) : Prop where
  whole_ne_nil : whole ≠ []
  fraction_ne_nil : fraction ≠ []
  isDigit : ∀ c ∈ whole ++ fraction, c.isDigit
  ofDecimal?_eq : Magnitude.ofDecimal?
    ⟨Nat.ofDigitChars 10 (whole ++ fraction) 0, -(fraction.length : Int)⟩ = Magnitude.ofDecimal? d

theorem isDigit_of_mem_digits {d : Decimal} {c : Char} (h : c ∈ d.digits) : c.isDigit :=
  Nat.isDigit_of_mem_toDigits (by decide) (by decide) h

theorem ofDigitChars_digits (d : Decimal) : Nat.ofDigitChars 10 d.digits 0 = d.coefficient :=
  Nat.ofDigitChars_ten_toDigits

theorem isDigit_of_mem_zeros {count : Nat} {c : Char} (h : c ∈ List.replicate count '0') :
    c.isDigit := by
  rw [(List.mem_replicate.mp h).2]
  rfl

/-- Zeros behind a whole number, and one behind the point. -/
theorem isPointed_of_nonneg {d : Decimal} (h : 0 ≤ d.exponent) :
    d.IsPointed (d.digits ++ List.replicate d.exponent.toNat '0') ['0'] := by
  refine ⟨?_, by simp, ?_, ?_⟩
  · intro hnil
    exact Nat.toDigits_ne_nil (List.append_eq_nil_iff.mp hnil).1
  · intro c hc
    simp only [List.mem_append, List.mem_singleton] at hc
    rcases hc with (hc | hc) | rfl
    · exact isDigit_of_mem_digits hc
    · exact isDigit_of_mem_zeros hc
    · rfl
  · have hvalue : Nat.ofDigitChars 10
        (d.digits ++ List.replicate d.exponent.toNat '0' ++ List.replicate 1 '0') 0 =
          10 ^ 1 * (10 ^ d.exponent.toNat * d.coefficient) := by
      rw [Nat.ofDigitChars_append, Nat.ofDigitChars_append, ofDigitChars_digits,
        Nat.ofDigitChars_replicate_zero, Nat.ofDigitChars_replicate_zero]
    -- the two decimals agree on the scale of one digit behind the point
    have hexact : 10 ^ 1 * (10 ^ d.exponent.toNat * d.coefficient) * 10 ^ 0 =
        d.coefficient * 10 ^ (d.exponent + (1 : Nat)).toNat := by
      have hsplit : (d.exponent + (1 : Nat)).toNat = d.exponent.toNat + 1 := by omega
      rw [hsplit, Nat.pow_zero, Nat.mul_one, Nat.pow_one, ← Nat.mul_assoc, ← Nat.pow_succ',
        Nat.mul_comm]
    exact Magnitude.ofDecimal?_congr 1 (by simp) (by omega) (hvalue ▸ hexact)

/-- The digits of a decimal behind enough zeros, with the point as many digits before the end as its
exponent says. -/
theorem isPointed_of_neg {d : Decimal} {padded : List Char} {places : Nat}
    (hpadded : padded = List.replicate (places + 1 - d.digits.length) '0' ++ d.digits)
    (hplaces : 0 < places) (h : d.exponent = -(places : Int)) :
    d.IsPointed (padded.take (padded.length - places)) (padded.drop (padded.length - places)) := by
  have hlength : places + 1 ≤ padded.length := by
    rw [hpadded, List.length_append, List.length_replicate]
    omega
  have hdrop : (padded.drop (padded.length - places)).length = places := by
    rw [List.length_drop]
    omega
  refine ⟨?_, ?_, ?_, ?_⟩
  · rw [← List.length_pos_iff, List.length_take]
    omega
  · rw [← List.length_pos_iff, hdrop]
    exact hplaces
  · rw [List.take_append_drop, hpadded]
    intro c hc
    rcases List.mem_append.mp hc with hc | hc
    · exact isDigit_of_mem_zeros hc
    · exact isDigit_of_mem_digits hc
  · have hvalue : Nat.ofDigitChars 10 padded 0 = d.coefficient := by
      rw [hpadded, Nat.ofDigitChars_append, Nat.ofDigitChars_replicate_zero, Nat.mul_zero,
        ofDigitChars_digits]
    rw [List.take_append_drop, hdrop, hvalue, ← h]

/-- The text of a decimal is two runs of digits around a point. -/
theorem exists_isPointed (d : Decimal) : ∃ whole fraction : List Char,
    d.pointed = whole ++ '.' :: fraction ∧ d.IsPointed whole fraction := by
  unfold pointed
  split
  · rename_i hexponent
    exact ⟨_, ['0'], by simp, isPointed_of_nonneg hexponent⟩
  · rename_i hexponent
    exact ⟨_, _, rfl, isPointed_of_neg rfl (by omega) (by omega)⟩

end Decimal

end ScimQuery
