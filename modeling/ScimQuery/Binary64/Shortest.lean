import ScimQuery.Binary64.Basic

/-!
# The shortest decimal of a binary number

A binary number is written with the fewest digits that are read as that number again, and with the
decimal nearest to it among those. For each number of digits only the two neighbours of the number on
the grid of such decimals have to be tried: if any point of the grid is read as the number, so is one
of them.

Whatever is chosen is read as the number again, because `readsAs` is asked of it.
-/

namespace ScimQuery

/-- Which of two decimals is taken when a number lies in the middle between them. -/
inductive TieBreak
  /-- The greater one. -/
  | up
  /-- The one with the even coefficient. -/
  | even
deriving DecidableEq

namespace Magnitude

/-- Whether a decimal is read as this magnitude. -/
def readsAs (m : Magnitude) (d : Decimal) : Bool := ofDecimal? d == some m

/-- The decimal with exactly the value of a magnitude. -/
def exactDecimal (m : Magnitude) : Decimal :=
  ⟨m.units * Nat.pow 5 unitExponent, -(unitExponent : Int)⟩

/-- The power of ten of the first digit of a magnitude other than zero. Every such magnitude is at
least `10 ^ -324`. -/
def leadingExponent (m : Magnitude) : Int :=
  ((Nat.toDigits 10 (m.units * Nat.pow 10 324 / unitsPerOne)).length : Int) - 325

/-- The decimals with a given exponent next to a magnitude: the greatest one that is not above it and
its successor, the nearer one in front. -/
def neighbours (tie : TieBreak) (m : Magnitude) (exponent : Int) : Decimal × Decimal :=
  let num := m.units * Nat.pow 10 (-exponent).toNat
  let den := unitsPerOne * Nat.pow 10 exponent.toNat
  let q := num / den
  let r := num % den
  let below : Decimal := ⟨q, exponent⟩
  let above : Decimal := ⟨q + 1, exponent⟩
  let upward := den < 2 * r || (den == 2 * r && (tie == .up || q % 2 == 1))
  if upward then (above, below) else (below, above)

/-- The nearest decimal of so many digits that is read as a magnitude. -/
def withDigits? (tie : TieBreak) (m : Magnitude) (count : Nat) : Option Decimal :=
  let nearest := m.neighbours tie (m.leadingExponent - (count - 1 : Nat))
  [nearest.1.normalize, nearest.2.normalize].find? m.readsAs

/-- The nearest decimal among the shortest ones that are read as a magnitude. Seventeen digits are
always enough. -/
def shortest (tie : TieBreak) (m : Magnitude) : Decimal :=
  if m = zero then ⟨0, 0⟩
  else ((List.range' 1 17).findSome? (m.withDigits? tie)).getD m.exactDecimal.normalize

end Magnitude

end ScimQuery
