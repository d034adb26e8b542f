/-!
# Integers

The text of an integer: a minus sign if it is negative, and its digits without leading zeros.
-/

namespace ScimQuery.Text

/-- The text of an integer in decimal notation. -/
def integer (n : Int) : String :=
  String.ofList ((if n < 0 then ['-'] else []) ++ Nat.toDigits 10 n.natAbs)

end ScimQuery.Text
