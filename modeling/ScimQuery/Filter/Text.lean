import ScimQuery.Filter.Basic
import ScimQuery.Text.Quoted

/-!
# The canonical text of a filter

A filter is written with single spaces, keywords in lower case and the least brackets that keep its
shape: chains group to the left, so the right operand of a connective needs round brackets if it is
a chain itself, and the left one only if it is a chain of the other connective.

`text` writes the pieces of a filter one after the other, whatever its depth. `text_condition`,
`text_logical` and `text_array` give its value by recursion on the filter.
-/

namespace ScimQuery

/-- The text of a condition: its path, its comparator and its operand, a text between quotation
marks. -/
def Condition.text (c : Condition) : String :=
  let test := c.path ++ " " ++ c.comparator.keyword
  match c.operand with
  | some (.text s) => test ++ " " ++ Text.Quoted.write s
  | some operand => test ++ " " ++ operand.display
  | none => test

namespace Filter

/-- A part of the text of a filter that is left to write. -/
inductive Piece
  | filter (f : Filter)
  | text (s : String)

/-- A measure of the work that a piece takes. -/
def Piece.weight : Piece → Nat
  | .filter f => 8 * f.nodes
  | .text _ => 1

/-- The pieces of an operand of a connective, in round brackets or not. -/
def operandPieces (grouped : Bool) (f : Filter) : List Piece :=
  if grouped then [.text "(", .filter f, .text ")"] else [.filter f]

/-- The pieces of a connective and its operands. -/
def logicalPieces (c : Connective) (l r : Filter) : List Piece :=
  operandPieces (l.connective?.any (· != c)) l ++
    .text (" " ++ c.keyword ++ " ") :: operandPieces r.connective?.isSome r

theorem weight_operandPieces (grouped : Bool) (f : Filter) :
    workload Piece.weight (operandPieces grouped f) ≤ 8 * f.nodes + 2 := by
  cases grouped <;> simp [operandPieces, Piece.weight]; omega

theorem weight_logicalPieces (c : Connective) (l r : Filter) :
    workload Piece.weight (logicalPieces c l r) < 8 * (Filter.logical c l r).nodes := by
  have hl := weight_operandPieces (l.connective?.any (· != c)) l
  have hr := weight_operandPieces r.connective?.isSome r
  simp only [logicalPieces, workload_append, workload_cons, Piece.weight, nodes]
  omega

/-- Writes pieces behind `out`. -/
def writePieces (out : String) : List Piece → String
  | [] => out
  | .text s :: pieces => writePieces (out ++ s) pieces
  | .filter (.condition c) :: pieces => writePieces (out ++ c.text) pieces
  | .filter (.logical c l r) :: pieces => writePieces out (logicalPieces c l r ++ pieces)
  | .filter (.array path f) :: pieces =>
    writePieces (out ++ path ++ "[") (.filter f :: .text "]" :: pieces)
termination_by pieces => workload Piece.weight pieces
decreasing_by
  · simp [Piece.weight]
  · simp [Piece.weight, nodes]
  · have := weight_logicalPieces c l r
    simp only [workload_append, workload_cons, Piece.weight]
    omega
  · simp only [workload_cons, Piece.weight, nodes]
    omega

/-- The canonical text of a filter. -/
def text (f : Filter) : String := writePieces "" [.filter f]

/-- How a filter is shown in diagnostics: its canonical text under the name of its type. -/
def debugText (f : Filter) : String := "ScimNode(" ++ f.text ++ ")"

/-! ### What is written for each kind of filter -/

/-- The text of a filter as an operand of a connective, in round brackets or not. -/
def operandText (grouped : Bool) (f : Filter) : String :=
  if grouped then "(" ++ f.text ++ ")" else f.text

theorem writePieces_append (out front : String) (pieces : List Piece) :
    writePieces (front ++ out) pieces = front ++ writePieces out pieces := by
  fun_induction writePieces out pieces <;> simp_all [writePieces, String.append_assoc]

theorem writePieces_eq (out : String) (pieces : List Piece) :
    writePieces out pieces = out ++ writePieces "" pieces := by
  simpa using writePieces_append "" out pieces

/-- The text of pieces is that of the first one followed by that of the others. -/
theorem writePieces_cat (out : String) (front pieces : List Piece) :
    writePieces out (front ++ pieces) = writePieces (writePieces out front) pieces := by
  fun_induction writePieces out front <;> simp_all [writePieces]

theorem writePieces_filter (out : String) (f : Filter) (pieces : List Piece) :
    writePieces out (.filter f :: pieces) = writePieces (out ++ f.text) pieces := by
  rw [← List.singleton_append, writePieces_cat, writePieces_eq out, text]

theorem writePieces_operandPieces (out : String) (grouped : Bool) (f : Filter)
    (pieces : List Piece) :
    writePieces out (operandPieces grouped f ++ pieces) =
      writePieces (out ++ operandText grouped f) pieces := by
  cases grouped <;>
    simp [operandPieces, operandText, writePieces, writePieces_filter, String.append_assoc]

@[simp] theorem text_condition (c : Condition) : text (.condition c) = c.text := by
  simp [text, writePieces]

/-- A connective stands between its operands. The left one is in brackets if it is a chain of the
other connective, and the right one if it is a chain at all. -/
theorem text_logical (c : Connective) (l r : Filter) :
    text (.logical c l r) =
      operandText (l.connective?.any (· != c)) l ++ (" " ++ c.keyword ++ " ") ++
        operandText r.connective?.isSome r := by
  have h := writePieces_operandPieces
    (operandText (l.connective?.any (· != c)) l ++ (" " ++ c.keyword ++ " "))
    r.connective?.isSome r []
  rw [List.append_nil] at h
  rw [text, writePieces, List.append_nil, logicalPieces, writePieces_operandPieces, writePieces,
    String.empty_append, h, writePieces]

@[simp] theorem text_array (path : String) (f : Filter) :
    text (.array path f) = path ++ "[" ++ f.text ++ "]" := by
  rw [text, writePieces, writePieces_filter, writePieces, writePieces, String.empty_append]

end Filter

end ScimQuery
