import Mathlib.Algebra.Order.Field.Rat
import Mathlib.Data.Nat.Cast.Order.Field
import Mathlib.Tactic.FieldSimp
import Mathlib.Tactic.Linarith
import Mathlib.Tactic.Positivity
import Mathlib.Tactic.Ring
import ScimQuery.Proofs.Numbers

/-!
# Decimals are read as the nearest number

`Magnitude.IsNearest` says what rounding to the nearest number is to be, and not how it is done: no
number of 53 bits is nearer, and one that is as near is passed over for the one with the even
significand. The exponent has no upper bound in this, so that a decimal too far above all magnitudes
has no nearest one (`exists_isNearest_iff`).

What a ratio is rounded to is compared with the numbers of its own exponent and above, which are the
multiples of one step (`abs_rounded_sub_le_multiple`), and with those below, which are all too far
away (`abs_rounded_sub_lt`). Hence a decimal is read as a magnitude if and only if that is the
nearest one (`ofDecimal?_eq_some_iff`).
-/

namespace ScimQuery

/-! ### Rounding to whole numbers -/

/-- Rounding moves a ratio by at most one half, and by that much only to an even number. -/
theorem roundHalfEven_bounds {den : ℕ} (h : 0 < den) (num : ℕ) :
    2 * num ≤ 2 * (roundHalfEven num den * den) + den ∧
      2 * (roundHalfEven num den * den) ≤ 2 * num + den ∧
      (roundHalfEven num den % 2 = 1 → 2 * num ≠ 2 * (roundHalfEven num den * den) + den ∧
        2 * (roundHalfEven num den * den) ≠ 2 * num + den) := by
  have hsplit : num / den * den + num % den = num := Nat.div_add_mod' num den
  have hnext : (num / den + 1) * den = num / den * den + den := Nat.succ_mul _ _
  have hlt : num % den < den := Nat.mod_lt num h
  simp only [roundHalfEven]
  split_ifs with hdown hup
  · omega
  · omega
  · -- in the middle, the remainder by two is added to make the quotient even
    rcases Nat.mod_two_eq_zero_or_one (num / den) with hq | hq
    · rw [hq, Nat.add_zero]
      omega
    · rw [hq]
      omega

theorem abs_roundHalfEven_sub_le {den : ℕ} (h : 0 < den) (num : ℕ) :
    |(roundHalfEven num den : ℚ) - num / den| ≤ 1 / 2 := by
  have hden : (0 : ℚ) < den := by exact_mod_cast h
  obtain ⟨hlo, hhi, -⟩ := roundHalfEven_bounds h num
  have hlo' : 2 * (num : ℚ) ≤ 2 * (roundHalfEven num den * den) + den := by exact_mod_cast hlo
  have hhi' : 2 * ((roundHalfEven num den : ℚ) * den) ≤ 2 * num + den := by exact_mod_cast hhi
  have hratio : (num : ℚ) / den * den = num := div_mul_cancel₀ _ hden.ne'
  rw [abs_le]
  constructor <;> nlinarith

theorem even_roundHalfEven {den : ℕ} (h : 0 < den) {num : ℕ}
    (hhalf : |(roundHalfEven num den : ℚ) - num / den| = 1 / 2) :
    roundHalfEven num den % 2 = 0 := by
  have hden : (den : ℚ) ≠ 0 := by positivity
  by_contra hodd
  obtain ⟨hbelow, habove⟩ := (roundHalfEven_bounds h num).2.2 (by omega)
  rcases (abs_eq (by norm_num)).mp hhalf with hdist | hdist
  · refine habove ?_
    have : 2 * ((roundHalfEven num den : ℚ) * den) = 2 * num + den := by
      field_simp at hdist
      linarith
    exact_mod_cast this
  · refine hbelow ?_
    have : 2 * (num : ℚ) = 2 * (roundHalfEven num den * den) + den := by
      field_simp at hdist
      linarith
    exact_mod_cast this

/-! ### Rounding to a grid -/

/-- Of the whole multiples of a step, none is nearer than the one that is at most half a step away;
and one that is as near is next to it, in the middle between them. -/
theorem abs_sub_le_of_half {x g : ℚ} (hg : 0 < g) {n : ℕ} (hn : |n - x / g| ≤ 1 / 2) (k : ℕ) :
    |n * g - x| ≤ |k * g - x| ∧
      (|n * g - x| = |k * g - x| → k ≠ n → |n - x / g| = 1 / 2 ∧ (k = n + 1 ∨ n = k + 1)) := by
  have hscale : ∀ a : ℚ, |a * g - x| = |a - x / g| * g := by
    intro a
    rw [← abs_of_pos hg, ← abs_mul, abs_of_pos hg, sub_mul, div_mul_cancel₀ _ hg.ne']
  rw [hscale, hscale, mul_le_mul_iff_left₀ hg, mul_left_inj' hg.ne']
  rcases eq_or_ne k n with rfl | hne
  · exact ⟨le_rfl, fun _ h => absurd rfl h⟩
  · -- two whole numbers are one apart at least, and each half of that is one of the distances
    have hapart : (1 : ℤ) ≤ |(k : ℤ) - n| := Int.one_le_abs (by omega)
    have hapart' : (1 : ℚ) ≤ |(k : ℚ) - n| := by exact_mod_cast hapart
    have htriangle := abs_sub_le (k : ℚ) (x / g) n
    rw [abs_sub_comm (x / g)] at htriangle
    refine ⟨by linarith, fun heq _ => ⟨by linarith, ?_⟩⟩
    have hone : |(k : ℚ) - n| = 1 := by linarith
    have hone' : |(k : ℤ) - n| = 1 := by exact_mod_cast hone
    rcases (abs_eq (by decide)).mp hone' with h | h
    · left
      omega
    · right
      omega

/-! ### Rounding to 53 bits -/

namespace Magnitude

/-- The numbers of 53 bits with one exponent stand below the numbers that have all these bits and a
greater exponent. -/
theorem mul_two_pow_lt {s e e' : ℕ} (hs : s < 2 ^ 53) (he : e < e') :
    s * 2 ^ e < 2 ^ 52 * 2 ^ e' :=
  calc s * 2 ^ e < 2 ^ 53 * 2 ^ e := Nat.mul_lt_mul_of_pos_right hs (Nat.two_pow_pos e)
    _ = 2 ^ (53 + e) := (Nat.pow_add 2 53 e).symm
    _ ≤ 2 ^ (52 + e') := Nat.pow_le_pow_right (by decide) (by omega)
    _ = 2 ^ 52 * 2 ^ e' := Nat.pow_add 2 52 e'

/-- The number of units that a ratio of units is rounded to, however large it is. -/
def rounded (num den : ℕ) : ℕ := roundedSignificand num den * 2 ^ excessBits (num / den)

section Rounded

variable {num den : ℕ}

/-- A significand of 54 bits is the least one of them, and one bit of it can be left out. -/
theorem rounded_of_carry (h : 2 ^ 53 ≤ roundedSignificand num den) :
    rounded num den = 2 ^ 52 * 2 ^ (excessBits (num / den) + 1) := by
  have hcarry : roundedSignificand num den = 2 ^ 53 :=
    Nat.le_antisymm (roundedSignificand_le num den) h
  rw [rounded, hcarry, ← Nat.pow_add, ← Nat.pow_add]
  congr 1
  omega

/-- A magnitude is what was rounded, with an even significand if the one before the carry was
even. -/
theorem ofRatio?_some {m : Magnitude} (h : ofRatio? num den = some m) :
    m.units = rounded num den ∧ (roundedSignificand num den % 2 = 0 → m.significand % 2 = 0) := by
  simp only [ofRatio?] at h
  split_ifs at h with hs he he
  · obtain rfl := Option.some.inj h
    exact ⟨rfl, id⟩
  · obtain rfl := Option.some.inj h
    exact ⟨(rounded_of_carry (Nat.not_lt.mp hs)).symm, fun _ => show 2 ^ 52 % 2 = 0 by decide⟩

theorem units_lt (m : Magnitude) : m.units < 2 ^ 52 * 2 ^ 2046 :=
  mul_two_pow_lt m.significand_lt (Nat.lt_succ_of_le m.exponent_le)

/-- A ratio that is rounded to no magnitude is rounded to a number above all of them. -/
theorem le_rounded_of_ofRatio?_none (h : ofRatio? num den = none) :
    2 ^ 52 * 2 ^ 2046 ≤ rounded num den := by
  simp only [ofRatio?] at h
  split_ifs at h with hs he he
  · -- the significand has all its bits, since the exponent is not the least one
    exact Nat.mul_le_mul (le_roundedSignificand (by omega))
      (pow_le_pow_right₀ one_le_two (by omega))
  · rw [rounded_of_carry (Nat.not_lt.mp hs)]
    exact Nat.mul_le_mul_left _ (pow_le_pow_right₀ one_le_two (by omega))

/-- What a ratio is rounded to has 53 bits. -/
theorem exists_significand (num den : ℕ) :
    ∃ s e : ℕ, s < 2 ^ 53 ∧ s * 2 ^ e = rounded num den := by
  rcases Nat.lt_or_ge (roundedSignificand num den) (2 ^ 53) with hs | hs
  · exact ⟨_, _, hs, rfl⟩
  · exact ⟨2 ^ 52, excessBits (num / den) + 1, by decide, (rounded_of_carry hs).symm⟩

variable (num) (hden : 0 < den)

include hden

theorem abs_roundedSignificand_sub_le :
    |(roundedSignificand num den : ℚ) - num / den / 2 ^ excessBits (num / den)| ≤ 1 / 2 := by
  have hpos : 0 < den * Nat.pow 2 (excessBits (num / den)) :=
    Nat.mul_pos hden (Nat.two_pow_pos _)
  have hhalf := abs_roundHalfEven_sub_le hpos num
  rw [Nat.cast_mul, ← div_div] at hhalf
  exact_mod_cast hhalf

theorem roundedSignificand_mod_two
    (h : |(roundedSignificand num den : ℚ) - num / den / 2 ^ excessBits (num / den)| = 1 / 2) :
    roundedSignificand num den % 2 = 0 := by
  have hpos : 0 < den * Nat.pow 2 (excessBits (num / den)) :=
    Nat.mul_pos hden (Nat.two_pow_pos _)
  refine even_roundHalfEven hpos ?_
  rw [Nat.cast_mul, ← div_div]
  exact_mod_cast h

/-- Of the whole multiples of the step of the rounding, none is nearer than what was rounded, and
only an odd multiple can be as near. -/
theorem abs_rounded_sub_le_multiple (k : ℕ) :
    |(rounded num den : ℚ) - num / den| ≤
        |(k * 2 ^ excessBits (num / den) : ℕ) - (num : ℚ) / den| ∧
      (|(rounded num den : ℚ) - num / den| =
          |(k * 2 ^ excessBits (num / den) : ℕ) - (num : ℚ) / den| →
        k * 2 ^ excessBits (num / den) ≠ rounded num den →
        roundedSignificand num den % 2 = 0 ∧ k % 2 = 1) := by
  have hstep : (0 : ℚ) < 2 ^ excessBits (num / den) := by positivity
  have hcast : ∀ n : ℕ, ((n * 2 ^ excessBits (num / den) : ℕ) : ℚ) =
      n * 2 ^ excessBits (num / den) := fun n => by push_cast; rfl
  obtain ⟨hle, htie⟩ := abs_sub_le_of_half hstep (abs_roundedSignificand_sub_le num hden) k
  rw [rounded, hcast, hcast]
  refine ⟨hle, fun heq hne => ?_⟩
  obtain ⟨hhalf, hnext⟩ := htie heq fun hk => hne (by rw [hk])
  have heven := roundedSignificand_mod_two num hden hhalf
  omega

/-- What a ratio is rounded to is nearer than all numbers of 53 bits with smaller exponents. -/
theorem abs_rounded_sub_lt {s e : ℕ} (hs : s < 2 ^ 53) (he : e < excessBits (num / den)) :
    |(rounded num den : ℚ) - num / den| < |(s * 2 ^ e : ℕ) - (num : ℚ) / den| := by
  -- the least number with all 53 bits and the exponent lies between the other one and the ratio
  have hbelow : ((s * 2 ^ e : ℕ) : ℚ) < (2 ^ 52 * 2 ^ excessBits (num / den) : ℕ) :=
    Nat.cast_lt.mpr (mul_two_pow_lt hs he)
  have hratio : ((2 ^ 52 * 2 ^ excessBits (num / den) : ℕ) : ℚ) ≤ num / den := by
    have hfloor : 2 ^ 52 * 2 ^ excessBits (num / den) ≤ num / den :=
      (Nat.le_div_iff_mul_le (Nat.two_pow_pos _)).mp (le_div_excessBits (by omega))
    exact (Nat.cast_le.mpr hfloor).trans Nat.cast_div_le
  have hnear := (abs_rounded_sub_le_multiple num hden (2 ^ 52)).1
  rw [abs_of_nonpos (sub_nonpos.mpr hratio)] at hnear
  rw [abs_of_neg (a := ((s * 2 ^ e : ℕ) : ℚ) - num / den) (by linarith)]
  linarith

/-- No number of 53 bits is nearer to a ratio than what it is rounded to. If one is as near, then it
has an odd significand, and what was rounded has an even one. -/
theorem abs_rounded_sub_le {s e : ℕ} (hs : s < 2 ^ 53) :
    |(rounded num den : ℚ) - num / den| ≤ |(s * 2 ^ e : ℕ) - (num : ℚ) / den| ∧
      (|(rounded num den : ℚ) - num / den| = |(s * 2 ^ e : ℕ) - (num : ℚ) / den| →
        s * 2 ^ e ≠ rounded num den → roundedSignificand num den % 2 = 0 ∧ s % 2 = 1) := by
  rcases Nat.lt_or_ge e (excessBits (num / den)) with he | he
  · have hlt := abs_rounded_sub_lt num hden hs he
    exact ⟨hlt.le, fun htie => absurd htie hlt.ne⟩
  · have hmultiple : s * 2 ^ e =
        s * 2 ^ (e - excessBits (num / den)) * 2 ^ excessBits (num / den) := by
      rw [Nat.mul_assoc, ← Nat.pow_add, Nat.sub_add_cancel he]
    obtain ⟨hle, htie⟩ := abs_rounded_sub_le_multiple num hden
      (s * 2 ^ (e - excessBits (num / den)))
    rw [← hmultiple] at hle htie
    refine ⟨hle, fun heq hne => ?_⟩
    obtain ⟨heven, hodd⟩ := htie heq hne
    exact ⟨heven, Nat.odd_iff.mp (Nat.odd_mul.mp (Nat.odd_iff.mpr hodd)).1⟩

end Rounded

/-! ### The nearest magnitude -/

theorem unitsPerOne_pos : (0 : ℚ) < unitsPerOne := by
  unfold unitsPerOne
  -- a variable from here on, since a power of this size is not to be computed with
  generalize unitExponent = n
  exact Nat.cast_pos.mpr (Nat.two_pow_pos n)

theorem units_inj {m m' : Magnitude} (h : m.units = m'.units) : m = m' := by
  have hone := ofRatio?_units m Nat.one_pos
  rw [h, ofRatio?_units m' Nat.one_pos] at hone
  exact (Option.some.inj hone).symm

/-- The value of a magnitude. -/
def value (m : Magnitude) : ℚ := m.units / unitsPerOne

theorem value_nonneg (m : Magnitude) : 0 ≤ m.value :=
  div_nonneg (Nat.cast_nonneg _) unitsPerOne_pos.le

theorem value_inj {m n : Magnitude} : m.value = n.value ↔ m = n := by
  constructor
  · intro h
    unfold value at h
    rw [div_left_inj' unitsPerOne_pos.ne', Nat.cast_inj] at h
    exact units_inj h
  · exact congrArg value

theorem value_zero : zero.value = 0 := by
  rw [value, show zero.units = 0 from Nat.zero_mul _, Nat.cast_zero, zero_div]

/-- Whether a magnitude is the nearest one to a ratio. It is compared with all numbers of 53 bits,
those above the greatest magnitude too. None of them is nearer, and if another one is as near, then
the significand of the magnitude is even. -/
structure IsNearest (m : Magnitude) (r : ℚ) : Prop where
  le : ∀ s e : ℕ, s < 2 ^ 53 → |m.value - r| ≤ |(s * 2 ^ e : ℕ) / unitsPerOne - r|
  even : ∀ s e : ℕ, s < 2 ^ 53 → s * 2 ^ e ≠ m.units →
    |m.value - r| = |(s * 2 ^ e : ℕ) / unitsPerOne - r| → m.significand % 2 = 0

/-- The distances may be measured in units. -/
theorem isNearest_iff {m : Magnitude} {r : ℚ} : m.IsNearest r ↔
    ∀ s e : ℕ, s < 2 ^ 53 →
      |m.units - r * unitsPerOne| ≤ |(s * 2 ^ e : ℕ) - r * unitsPerOne| ∧
      (s * 2 ^ e ≠ m.units → |m.units - r * unitsPerOne| = |(s * 2 ^ e : ℕ) - r * unitsPerOne| →
        m.significand % 2 = 0) := by
  have hscale : ∀ c : ℕ, |(c : ℚ) / unitsPerOne - r| = |c - r * unitsPerOne| / unitsPerOne := by
    intro c
    rw [← abs_of_pos unitsPerOne_pos, ← abs_div, abs_of_pos unitsPerOne_pos, sub_div,
      mul_div_cancel_right₀ r unitsPerOne_pos.ne']
  have hle : ∀ c : ℕ, |m.value - r| ≤ |(c : ℚ) / unitsPerOne - r| ↔
      |m.units - r * unitsPerOne| ≤ |c - r * unitsPerOne| := by
    intro c
    rw [value, hscale, hscale, div_le_div_iff_of_pos_right unitsPerOne_pos]
  have heq : ∀ c : ℕ, |m.value - r| = |(c : ℚ) / unitsPerOne - r| ↔
      |m.units - r * unitsPerOne| = |c - r * unitsPerOne| := by
    intro c
    rw [value, hscale, hscale, div_left_inj' unitsPerOne_pos.ne']
  constructor
  · intro h s e hs
    exact ⟨(hle _).mp (h.le s e hs), fun hne htie => h.even s e hs hne ((heq _).mpr htie)⟩
  · intro h
    exact ⟨fun s e hs => (hle _).mpr (h s e hs).1, fun s e hs hne htie =>
      (h s e hs).2 hne ((heq _).mp htie)⟩

/-- A ratio is rounded to a magnitude if and only if that is the nearest one. -/
theorem ofRatio?_eq_some_iff {num den : ℕ} (hden : 0 < den) {r : ℚ}
    (hr : r * unitsPerOne = num / den) {m : Magnitude} :
    ofRatio? num den = some m ↔ m.IsNearest r := by
  rw [isNearest_iff, hr]
  constructor
  · intro h s e hs
    obtain ⟨hunits, heven⟩ := ofRatio?_some h
    obtain ⟨hle, htie⟩ := abs_rounded_sub_le num hden (e := e) hs
    rw [hunits]
    exact ⟨hle, fun hne heq => heven (htie heq hne).1⟩
  · intro h
    have hunits : m.units = rounded num den := by
      -- otherwise both are as near, and the significand of the magnitude is even and odd
      by_contra hne
      obtain ⟨s, e, hs, hrounded⟩ := exists_significand num den
      obtain ⟨hle, heven⟩ := h s e hs
      rw [hrounded] at hle heven
      obtain ⟨hle', hodd⟩ := abs_rounded_sub_le num hden (e := m.exponent) m.significand_lt
      have heq := hle.antisymm hle'
      have hzero := heven (Ne.symm hne) heq
      have hone := (hodd heq.symm hne).2
      omega
    cases hround : ofRatio? num den with
    | none => exact absurd hunits (m.units_lt.trans_le (le_rounded_of_ofRatio?_none hround)).ne
    | some m' => rw [units_inj (hunits.trans (ofRatio?_some hround).1.symm)]

end Magnitude

/-! ### Decimals -/

/-- The value of a decimal. -/
def Decimal.value (d : Decimal) : ℚ := d.coefficient * 10 ^ d.exponent

theorem Decimal.ratio_pos (d : Decimal) : 0 < d.ratio.2 := by
  unfold Decimal.ratio
  split_ifs
  · exact Nat.one_pos
  · exact Nat.pow_pos (by decide)

theorem Decimal.value_eq (d : Decimal) : d.value = d.ratio.1 / d.ratio.2 := by
  unfold Decimal.value Decimal.ratio
  split_ifs with h
  · obtain ⟨n, hn⟩ := Int.eq_ofNat_of_zero_le h
    simp [hn]
  · obtain ⟨n, hn⟩ := Int.eq_ofNat_of_zero_le (show 0 ≤ -d.exponent by omega)
    have hexponent : d.exponent = -(n : ℤ) := by omega
    simp [hexponent, div_eq_mul_inv]

/-- A decimal is read as a magnitude if and only if that is the nearest one. -/
theorem Magnitude.ofDecimal?_eq_some_iff {d : Decimal} {m : Magnitude} :
    ofDecimal? d = some m ↔ m.IsNearest d.value := by
  refine ofRatio?_eq_some_iff d.ratio_pos ?_
  rw [d.value_eq, Nat.cast_mul, div_mul_eq_mul_div]

/-! ### The range -/

namespace Magnitude

/-- Half the step between the greatest magnitudes, in units. -/
def halfStep : ℚ := 2 ^ 970 * unitsPerOne

theorem halfStep_pos : 0 < halfStep := mul_pos (by positivity) unitsPerOne_pos

theorem two_pow_eq_halfStep (k : ℕ) :
    ((2 ^ (unitExponent + (970 + k)) : ℕ) : ℚ) = 2 ^ k * halfStep := by
  unfold halfStep unitsPerOne
  -- variables from here on, since powers of this size are not to be computed with
  generalize unitExponent = n, 970 = j
  show ((2 ^ (n + (j + k)) : ℕ) : ℚ) = 2 ^ k * (2 ^ j * ((2 ^ n : ℕ) : ℚ))
  push_cast
  rw [pow_add, pow_add]
  ring

/-- The greatest number of 53 bits with the greatest exponent. -/
theorem greatest_eq : (((2 ^ 53 - 1) * 2 ^ 2045 : ℕ) : ℚ) = (2 ^ 54 - 2) * halfStep := by
  rw [Nat.cast_mul, show 2045 = unitExponent + (970 + 1) from rfl, two_pow_eq_halfStep]
  push_cast
  ring

/-- The number after it. -/
theorem overflow_eq : ((2 ^ 52 * 2 ^ 2046 : ℕ) : ℚ) = 2 ^ 54 * halfStep := by
  rw [Nat.cast_mul, show 2046 = unitExponent + (970 + 2) from rfl, two_pow_eq_halfStep]
  push_cast
  ring

theorem units_le (m : Magnitude) : (m.units : ℚ) ≤ (2 ^ 54 - 2) * halfStep := by
  have hm : m.significand * 2 ^ m.exponent ≤ (2 ^ 53 - 1) * 2 ^ 2045 :=
    Nat.mul_le_mul (Nat.le_pred_of_lt m.significand_lt)
      (pow_le_pow_right₀ one_le_two m.exponent_le)
  rw [← greatest_eq]
  exact Nat.cast_le.mpr hm

/-- A ratio is rounded to a magnitude if and only if it is less than half a step above the greatest
one. In the middle the number after it is taken, which has the even significand. -/
theorem exists_ofRatio?_iff (num : ℕ) {den : ℕ} (hden : 0 < den) :
    (∃ m, ofRatio? num den = some m) ↔ (num : ℚ) / den < (2 ^ 54 - 1) * halfStep := by
  have hpos := halfStep_pos
  constructor
  · rintro ⟨m, hm⟩
    by_contra hge
    have hle := m.units_le
    have hlt : (m.units : ℚ) < (2 ^ 52 * 2 ^ 2046 : ℕ) := Nat.cast_lt.mpr m.units_lt
    obtain ⟨hnear, htie⟩ := abs_rounded_sub_le num hden (s := 2 ^ 52) (e := 2046) (by decide)
    rw [← (ofRatio?_some hm).1] at hnear htie
    rcases hnear.lt_or_eq with hnear | heq
    · rw [overflow_eq] at hnear hlt
      rw [abs_of_neg (by linarith), lt_abs] at hnear
      rcases hnear with hnear | hnear
      · linarith
      · linarith
    · exact absurd (htie heq (Nat.cast_lt.mp hlt).ne').2 (by decide)
  · intro hlt
    by_contra hnone
    have hround : (2 ^ 54 * halfStep : ℚ) ≤ rounded num den := by
      rw [← overflow_eq]
      refine Nat.cast_le.mpr (le_rounded_of_ofRatio?_none ?_)
      exact Option.eq_none_iff_forall_ne_some.mpr (not_exists.mp hnone)
    have hnear := (abs_rounded_sub_le num hden (s := 2 ^ 53 - 1) (e := 2045)
      (by decide)).1
    rw [greatest_eq, abs_of_pos (a := (rounded num den : ℚ) - num / den) (by linarith), le_abs]
      at hnear
    rcases hnear with hnear | hnear
    · linarith
    · linarith

theorem limit_eq : (2 ^ 1024 - 2 ^ 970 : ℚ) = (2 ^ 54 - 1) * 2 ^ 970 := by
  have hsplit : (2 ^ 1024 : ℚ) = 2 ^ 54 * 2 ^ 970 := pow_add 2 54 970
  rw [hsplit, sub_mul, one_mul]

/-- There is a nearest magnitude up to half a step above the greatest one. -/
theorem exists_isNearest_iff {d : Decimal} :
    (∃ m : Magnitude, m.IsNearest d.value) ↔ d.value < 2 ^ 1024 - 2 ^ 970 := by
  have hratio : ((d.ratio.1 * unitsPerOne : ℕ) : ℚ) / d.ratio.2 = d.value * unitsPerOne := by
    rw [d.value_eq, Nat.cast_mul, div_mul_eq_mul_div]
  have hrange := exists_ofRatio?_iff (d.ratio.1 * unitsPerOne) d.ratio_pos
  rw [hratio, halfStep, ← mul_assoc, mul_lt_mul_iff_left₀ unitsPerOne_pos, ← limit_eq] at hrange
  rw [← hrange]
  exact exists_congr fun m => ofDecimal?_eq_some_iff.symm

end Magnitude

end ScimQuery
