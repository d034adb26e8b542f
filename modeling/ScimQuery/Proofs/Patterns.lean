import ScimQuery.Pattern

/-!
# Reading patterns

A pattern is read from left to right: a backslash stands for the character behind it, and a
character with a meaning of its own is an operator where no backslash stands before it.
`read_escape_append` says that the pattern for a text is read as the characters of the text and as
nothing else, and that whatever is put behind it is read as if it stood alone. A text that ends in a
backslash, or that holds an anchor, therefore never changes how the pattern goes on.
-/

namespace ScimQuery.Pattern

/-- A part of a pattern. -/
inductive Item
  /-- A character that matches itself. -/
  | literal (c : Char)
  /-- A character with a meaning of its own. -/
  | operator (c : Char)
deriving DecidableEq

/-- The parts of a pattern. A backslash with nothing behind it is an operator. -/
def read : List Char → List Item
  | [] => []
  | '\\' :: c :: rest => .literal c :: read rest
  | c :: rest => (if special.contains c then .operator c else .literal c) :: read rest

theorem read_plain {c : Char} (h : special.contains c = false) (rest : List Char) :
    read (c :: rest) = .literal c :: read rest := by
  have hne : c ≠ '\\' := by
    rintro rfl
    exact absurd h (by decide)
  rw [read.eq_3 c rest fun _ _ hc => absurd hc hne, h]
  rfl

theorem read_escapeChar_append (c : Char) (rest : List Char) :
    read (escapeChar c ++ rest) = .literal c :: read rest := by
  unfold escapeChar
  cases h : special.contains c with
  | true => rfl
  | false => exact read_plain h rest

theorem read_escape_append (text : String) (rest : List Char) :
    read ((escape text).toList ++ rest) = text.toList.map .literal ++ read rest := by
  rw [escape, String.toList_ofList]
  induction text.toList with
  | nil => rfl
  | cons c s ih =>
    rw [List.flatMap_cons, List.append_assoc, read_escapeChar_append, ih]
    rfl

theorem read_escape (text : String) : read (escape text).toList = text.toList.map .literal := by
  have h := read_escape_append text []
  rwa [List.append_nil, read, List.append_nil] at h

/-- An anchor in front of the pattern for a text is read as an operator. -/
theorem read_startAnchor (text : String) :
    read ("^" ++ escape text).toList = .operator '^' :: text.toList.map .literal := by
  rw [String.toList_append, ← read_escape]
  rfl

/-- An anchor behind the pattern for a text is read as an operator, also if the text ends in a
backslash. -/
theorem read_endAnchor (text : String) :
    read (escape text ++ "$").toList = text.toList.map .literal ++ [.operator '$'] := by
  rw [String.toList_append, read_escape_append]
  rfl

/-- The pattern for a text that goes on is that for its beginning and that for the rest. -/
theorem escape_append (s t : String) : escape (s ++ t) = escape s ++ escape t := by
  unfold escape
  rw [String.toList_append, List.flatMap_append, String.ofList_append]

/-- The pattern for a text says which text it is. -/
theorem escape_inj {s t : String} : escape s = escape t ↔ s = t := by
  constructor
  · intro h
    have hread : s.toList.map Item.literal = t.toList.map Item.literal := by
      rw [← read_escape, ← read_escape, h]
    rw [List.map_inj_right fun _ _ => Item.literal.inj, String.toList_inj] at hread
    exact hread
  · exact congrArg escape

end ScimQuery.Pattern
