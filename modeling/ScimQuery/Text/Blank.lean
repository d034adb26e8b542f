import ScimQuery.Text.Transducer

/-!
# White space

`isBlank` is the white space property of the Unicode standard. `collapse` leaves one space of each
run of white space and `trim` removes white space from both ends, so that two texts which differ
only in how they are spaced have the same `trim (collapse s)`.
-/

namespace ScimQuery.Text

/-- The code points with the white space property, as inclusive ranges in ascending order. -/
def blankRanges : List (Nat × Nat) :=
  [(0x09, 0x0D), (0x20, 0x20), (0x85, 0x85), (0xA0, 0xA0), (0x1680, 0x1680), (0x2000, 0x200A),
    (0x2028, 0x2029), (0x202F, 0x202F), (0x205F, 0x205F), (0x3000, 0x3000)]

/-- Whether a character is white space. -/
def isBlank (c : Char) : Bool :=
  blankRanges.any fun r => r.1 ≤ c.toNat && c.toNat ≤ r.2

/-- Whether a text holds nothing but white space; the empty text does. -/
def isBlankText (s : String) : Bool := s.toList.all isBlank

/-- Writes a space for the first character of a run of white space and nothing for the others. The
state tells whether the character before was white space. -/
def collapser : Transducer Bool where
  start := false
  next _ c := isBlank c
  emit afterBlank c := if isBlank c then (if afterBlank then [] else [' ']) else [c]

/-- Replaces each maximal run of white space by one space. -/
def collapse (s : List Char) : List Char := collapser.write s

/-- Removes the white space at both ends. -/
def trim (s : List Char) : List Char :=
  ((s.dropWhile isBlank).reverse.dropWhile isBlank).reverse

end ScimQuery.Text
