/-!
# Finite-state transducers

A `Transducer` reads a text from left to right, carries a state from character to character and
writes a piece of text for each of them. White space, brackets and quotation marks are all treated
this way, so that what is written for a character depends on the characters before it only through
the state.

`writeFrom_cons` is the law that a proof about a transducer needs: what is written for the first
character stands in front of what is written for the rest.
-/

namespace ScimQuery

/-- A left-to-right pass over a text with states in `σ`. -/
structure Transducer (σ : Type) where
  /-- The state before the first character. -/
  start : σ
  /-- The state after a character. -/
  next : σ → Char → σ
  /-- The text that is written for a character. -/
  emit : σ → Char → List Char
  /-- The text that is written at the end. -/
  finish : σ → List Char := fun _ => []

namespace Transducer

variable {σ : Type} (t : Transducer σ)

/-- What is written for a text from the state `q` on, behind the reversed text `out`. -/
def writeOnto (out : List Char) (q : σ) : List Char → List Char
  | [] => out.reverse ++ t.finish q
  | c :: s => writeOnto ((t.emit q c).reverseAux out) (t.next q c) s

/-- What is written for a text from the state `q` on. -/
def writeFrom (q : σ) (s : List Char) : List Char := t.writeOnto [] q s

/-- What is written for a whole text. -/
def write (s : List Char) : List Char := t.writeFrom t.start s

theorem writeOnto_eq (out : List Char) (q : σ) (s : List Char) :
    t.writeOnto out q s = out.reverse ++ t.writeFrom q s := by
  induction s generalizing out q with
  | nil => simp [writeFrom, writeOnto]
  | cons c s ih =>
    rw [writeFrom, writeOnto, writeOnto, ih, ih]
    simp [List.reverseAux_eq]

@[simp] theorem writeFrom_nil (q : σ) : t.writeFrom q [] = t.finish q := by
  simp [writeFrom, writeOnto]

@[simp] theorem writeFrom_cons (q : σ) (c : Char) (s : List Char) :
    t.writeFrom q (c :: s) = t.emit q c ++ t.writeFrom (t.next q c) s := by
  rw [writeFrom, writeOnto, writeOnto_eq]
  simp [List.reverseAux_eq]

end Transducer

end ScimQuery
