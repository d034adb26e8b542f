import ScimQuery.Text.Ascii
import ScimQuery.Text.Integer
import ScimQuery.Binary64.Text

/-!
# Operands

What an attribute is compared with. A quoted operand is a text. A word is typed by what it looks
like (`Operand.ofWord`): a numeral is an integer if it has no fraction and fits in 64 bits, and
otherwise a binary number if a finite one is near it; `true` and `false` are truth values; all else
is a text.
-/

namespace ScimQuery

/-! ### Numerals -/

/-- The parts of a word that looks like a number. -/
structure Numeral where
  negative : Bool
  /-- The digits before the point. -/
  whole : List Char
  /-- The digits behind the point, if there is a point. -/
  fraction : Option (List Char)

namespace Numeral

/-- Takes a word apart into a sign, digits and a fraction: `-?[0-9]+(\.[0-9]+)?`. -/
def ofWord? (word : List Char) : Option Numeral :=
  let (negative, unsigned) := match word with
    | '-' :: rest => (true, rest)
    | rest => (false, rest)
  let whole := unsigned.takeWhile Char.isDigit
  if whole.isEmpty then none
  else match unsigned.dropWhile Char.isDigit with
    | [] => some ⟨negative, whole, none⟩
    | '.' :: fraction =>
      if !fraction.isEmpty && fraction.all Char.isDigit then some ⟨negative, whole, some fraction⟩
      else none
    | _ => none

/-- The absolute value of a numeral. -/
def magnitude (n : Numeral) : Decimal :=
  let fraction := n.fraction.getD []
  ⟨Nat.ofDigitChars 10 (n.whole ++ fraction) 0, -(fraction.length : Int)⟩

/-- The integer that a numeral without a fraction denotes. -/
def integer? (n : Numeral) : Option Int :=
  match n.fraction with
  | none =>
    let value := Nat.ofDigitChars 10 n.whole 0
    some (if n.negative then -(value : Int) else value)
  | some _ => none

/-- The binary number nearest to a numeral. -/
def nearest (n : Numeral) : Binary64 := Binary64.ofDecimal n.negative n.magnitude

end Numeral

/-! ### Operands -/

/-- The value that a condition compares an attribute with. -/
inductive Operand
  | text (value : String)
  | integer (value : Int64)
  | real (value : Binary64)
  | boolean (value : Bool)
deriving DecidableEq

namespace Operand

/-- The 64-bit integer with a given value. -/
def int64? (n : Int) : Option Int64 :=
  if Int64.minValue.toInt ≤ n ∧ n ≤ Int64.maxValue.toInt then some (Int64.ofInt n) else none

/-- The operand that a numeral denotes, unless its value is beyond all finite numbers. -/
def ofNumeral? (n : Numeral) : Option Operand :=
  match n.integer?.bind int64? with
  | some i => some (.integer i)
  | none => if n.nearest.isFinite then some (.real n.nearest) else none

/-- The truth value that a word names, in either case of its letters. -/
def boolean? (word : String) : Option Bool :=
  if Text.equalIgnoringCase word "true" then some true
  else if Text.equalIgnoringCase word "false" then some false
  else none

/-- The operand that an unquoted word stands for. -/
def ofWord (word : String) : Operand :=
  match (Numeral.ofWord? word.toList).bind ofNumeral? with
  | some number => number
  | none =>
    match boolean? word with
    | some b => .boolean b
    | none => .text word

/-- The text of an operand, without quotation marks. -/
def display : Operand → String
  | .text s => s
  | .integer n => Text.integer n.toInt
  | .real x => x.text
  | .boolean b => if b then "true" else "false"

/-- Whether two operands are of the same kind and equal in value. -/
def equal : Operand → Operand → Bool
  | .text s, .text t => s == t
  | .integer m, .integer n => m == n
  | .real x, .real y => x.equal y
  | .boolean b, .boolean c => b == c
  | _, _ => false

end Operand

end ScimQuery
