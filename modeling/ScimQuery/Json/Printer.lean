import ScimQuery.Binary64.Shortest
import ScimQuery.Json
import ScimQuery.Text.Integer

/-!
# The text of JSON values

A value is written without any white space (`compact`) or with each item and field on a line of its
own, indented by two spaces for each array or object around it (`pretty`).

Binary numbers have the fewest digits that read back. They are written in positional notation if the
power of ten of the first digit lies between -5 and 15, and with an exponent otherwise; infinities
and what is no number become `null`.
-/

namespace ScimQuery.Json

/-! ### Numbers -/

/-- The text of a decimal with an exponent: one digit before the point and a sign in the exponent. -/
def scientificText (d : Decimal) : List Char :=
  let fraction := match d.digits with
    | first :: [] => [first]
    | first :: rest => first :: '.' :: rest
    | [] => []
  let e := d.leadingExponent
  fraction ++ 'e' :: (if e < 0 then '-' else '+') :: Nat.toDigits 10 e.natAbs

/-- The text of a decimal: positional for leading exponents from -5 to 15, and with an exponent
beyond. -/
def decimalText (d : Decimal) : List Char :=
  if -5 ≤ d.leadingExponent ∧ d.leadingExponent ≤ 15 then d.pointed else scientificText d

/-- The text of a binary number. Of two decimals at the same distance the even one is taken. -/
def realText : Binary64 → String
  | .finite negative m =>
    String.ofList ((if negative then ['-'] else []) ++ decimalText (m.shortest .even))
  | .infinite _ => "null"
  | .nan => "null"

/-! ### Strings -/

/-- The text of a character in a string. Only quotation marks, backslashes and control characters
below the space are escaped. -/
def escapeChar (c : Char) : List Char :=
  match c with
  | '"' => ['\\', '"']
  | '\\' => ['\\', '\\']
  | '\x08' => ['\\', 'b']
  | '\x0c' => ['\\', 'f']
  | '\n' => ['\\', 'n']
  | '\r' => ['\\', 'r']
  | '\t' => ['\\', 't']
  | c =>
    if c.toNat < 0x20 then
      ['\\', 'u', '0', '0', Nat.digitChar (c.toNat / 16), Nat.digitChar (c.toNat % 16)]
    else [c]

/-- The text of a string, between quotation marks. -/
def quote (s : String) : String := String.ofList ('"' :: s.toList.flatMap escapeChar ++ ['"'])

/-! ### Values -/

/-- The break before an item at a depth of indentation; there is none in compact text. -/
def lineBreak : Option Nat → String
  | none => ""
  | some depth => String.ofList ('\n' :: List.replicate (2 * depth) ' ')

/-- What stands between the key and the value of a field. -/
def keySeparator : Option Nat → String
  | none => ":"
  | some _ => ": "

mutual

/-- Writes a value behind `out`, compact or at a depth of indentation. -/
def writeOnto (depth : Option Nat) (out : String) : Json → String
  | .null => out ++ "null"
  | .boolean b => out ++ if b then "true" else "false"
  | .integer n => out ++ Text.integer n
  | .real x => out ++ realText x
  | .string s => out ++ quote s
  | .array [] => out ++ "[]"
  | .array (item :: items) =>
    let inner := depth.map (· + 1)
    let first := writeOnto inner (out ++ "[" ++ lineBreak inner) item
    writeItems inner first items ++ lineBreak depth ++ "]"
  | .object [] => out ++ "\x7b\x7d"
  | .object ((key, value) :: fields) =>
    let inner := depth.map (· + 1)
    let first :=
      writeOnto inner (out ++ "\x7b" ++ lineBreak inner ++ quote key ++ keySeparator inner) value
    writeFields inner first fields ++ lineBreak depth ++ "\x7d"

/-- Writes the items of an array after the first. -/
def writeItems (depth : Option Nat) (out : String) : List Json → String
  | [] => out
  | item :: items => writeItems depth (writeOnto depth (out ++ "," ++ lineBreak depth) item) items

/-- Writes the fields of an object after the first. -/
def writeFields (depth : Option Nat) (out : String) : List (String × Json) → String
  | [] => out
  | (key, value) :: fields =>
    writeFields depth
      (writeOnto depth (out ++ "," ++ lineBreak depth ++ quote key ++ keySeparator depth) value)
      fields

end

/-- The text of a value without white space. -/
def compact (value : Json) : String := writeOnto none "" value

/-- The text of a value on indented lines. -/
def pretty (value : Json) : String := writeOnto (some 0) "" value

end ScimQuery.Json
