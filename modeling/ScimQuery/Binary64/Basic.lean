import ScimQuery.Decimal

/-!
# Binary floating-point numbers

`Binary64` is the set of values of the 64-bit binary format: finite numbers with a significand of 53
bits, the two infinities and one value that is no number. Finite numbers are whole multiples of
`2 ^ -1074`, the smallest positive one, and are held by their sign and their `Magnitude`; a magnitude
has one representation only.

A decimal is read by one exact rounding to the nearest number, a tie going to the even significand
(`Magnitude.ofRatio?`).
-/

namespace ScimQuery

/-! ### Magnitudes -/

/-- The number of times that `den` goes into `num`, rounded to the nearest natural number and to the
even one of two. -/
def roundHalfEven (num den : Nat) : Nat :=
  let q := num / den
  let r := num % den
  if 2 * r < den then q else if den < 2 * r then q + 1 else q + q % 2

theorem div_le_roundHalfEven (num den : Nat) : num / den ≤ roundHalfEven num den := by
  simp only [roundHalfEven]
  split
  · exact Nat.le_refl _
  · split <;> omega

theorem roundHalfEven_le (num den : Nat) : roundHalfEven num den ≤ num / den + 1 := by
  simp only [roundHalfEven]
  split
  · omega
  · split <;> omega

/-- The finite number `significand * 2 ^ exponent`, counted in units of `2 ^ -1074`. -/
structure Magnitude where
  significand : Nat
  exponent : Nat
  significand_lt : significand < Nat.pow 2 53
  /-- The significand has all its bits, save for the numbers next to zero. -/
  normal : exponent = 0 ∨ Nat.pow 2 52 ≤ significand
  exponent_le : exponent ≤ 2045
deriving DecidableEq

namespace Magnitude

/-- The unit is this power of one half. -/
def unitExponent : Nat := 1074

/-- The number of units in one. -/
def unitsPerOne : Nat := Nat.pow 2 unitExponent

/-- The value of a magnitude in units of `2 ^ -1074`. -/
def units (m : Magnitude) : Nat := m.significand * Nat.pow 2 m.exponent

/-- The magnitude that is zero. -/
def zero : Magnitude := ⟨0, 0, by decide, .inl rfl, by decide⟩

/-- The number of low bits that a whole number of `q` units has beyond 53. -/
def excessBits (q : Nat) : Nat := q.log2 - 52

theorem div_excessBits_lt (q : Nat) : q / Nat.pow 2 (excessBits q) < Nat.pow 2 53 := by
  refine (Nat.div_lt_iff_lt_mul (Nat.two_pow_pos _)).2 ?_
  refine Nat.lt_of_lt_of_le (@Nat.lt_log2_self q) ?_
  refine Nat.le_trans (Nat.pow_le_pow_right (by decide) ?_) (Nat.le_of_eq (Nat.pow_add 2 53 _))
  unfold excessBits
  omega

theorem le_div_excessBits {q : Nat} (h : excessBits q ≠ 0) :
    Nat.pow 2 52 ≤ q / Nat.pow 2 (excessBits q) := by
  have hq : q ≠ 0 := by rintro rfl; simp [excessBits] at h
  refine (Nat.le_div_iff_mul_le (Nat.two_pow_pos _)).2 ?_
  refine Nat.le_trans (Nat.le_of_eq (Nat.pow_add 2 52 _).symm) ?_
  refine Nat.le_trans (Nat.pow_le_pow_right (by decide) ?_) (Nat.log2_self_le hq)
  unfold excessBits at *
  omega

/-- The significand of `num / den` units before it is brought below `2 ^ 53`. -/
def roundedSignificand (num den : Nat) : Nat :=
  roundHalfEven num (den * Nat.pow 2 (excessBits (num / den)))

theorem roundedSignificand_le (num den : Nat) : roundedSignificand num den ≤ Nat.pow 2 53 := by
  refine Nat.le_trans (roundHalfEven_le _ _) ?_
  rw [← Nat.div_div_eq_div_mul]
  exact div_excessBits_lt (num / den)

theorem le_roundedSignificand {num den : Nat} (h : excessBits (num / den) ≠ 0) :
    Nat.pow 2 52 ≤ roundedSignificand num den := by
  refine Nat.le_trans ?_ (div_le_roundHalfEven _ _)
  rw [← Nat.div_div_eq_div_mul]
  exact le_div_excessBits h

/-- The magnitude nearest to `num / den` units, the one with the even significand if there are two.
There is none beyond the largest finite number, by half a step or more. -/
def ofRatio? (num den : Nat) : Option Magnitude :=
  let e := excessBits (num / den)
  let s := roundedSignificand num den
  if hs : s < Nat.pow 2 53 then
    if he : e ≤ 2045 then
      some ⟨s, e, hs, (Nat.eq_zero_or_pos e).imp id fun h => le_roundedSignificand (by omega), he⟩
    else none
  else
    if he : e + 1 ≤ 2045 then
      some ⟨Nat.pow 2 52, e + 1, by decide, .inr (Nat.le_refl _), he⟩
    else none

/-- The magnitude nearest to a decimal, if it is finite. -/
def ofDecimal? (d : Decimal) : Option Magnitude :=
  ofRatio? (d.ratio.1 * unitsPerOne) d.ratio.2

end Magnitude

/-! ### Numbers -/

/-- A value of the 64-bit binary format. -/
inductive Binary64
  | finite (negative : Bool) (magnitude : Magnitude)
  | infinite (negative : Bool)
  | nan
deriving DecidableEq

namespace Binary64

/-- The number nearest to a decimal with a sign; an infinity if the decimal is too large. -/
def ofDecimal (negative : Bool) (d : Decimal) : Binary64 :=
  (Magnitude.ofDecimal? d).elim (.infinite negative) (.finite negative)

/-- Whether a number is neither infinite nor no number. -/
def isFinite : Binary64 → Bool
  | .finite _ _ => true
  | _ => false

/-- Equality of the numbers denoted: the two zeros are equal, and no value equals what is no
number. -/
def equal : Binary64 → Binary64 → Bool
  | .finite s m, .finite t n => (s == t || m == .zero) && m == n
  | .infinite s, .infinite t => s == t
  | _, _ => false

end Binary64

end ScimQuery
