import ScimQuery.Filter.Text
import ScimQuery.Proofs.Parsed

/-!
# Filters that can be written

A filter that is built by hand can compare with any text, and with the zero that has a sign. Its
text is then not made of its own tokens: a text is written with the backslashes that it lacks, and
the sign of a zero is no part of a token. `Filter.written` is the filter that has these tokens.

Filters that come from texts are written as they are (`WellFormed.written_eq_self`).
-/

namespace ScimQuery

/-! ### Texts -/

namespace Text.Quoted

/-- Puts a backslash in front of each mark that is not the second half of a pair, and one behind a
last backslash that begins no pair. -/
def mend : List Char → List Char
  | [] => []
  | '"' :: s => '\\' :: '"' :: mend s
  | ['\\'] => ['\\', '\\']
  | '\\' :: c :: s => '\\' :: c :: mend s
  | c :: s => c :: mend s

theorem mend_plain {c : Char} (hq : c ≠ '"') (hb : c ≠ '\\') (s : List Char) :
    mend (c :: s) = c :: mend s :=
  mend.eq_5 c s hq (fun h _ => hb h) fun _ _ h _ => hb h

/-- The two states of the escaper are the two places in a pair. -/
theorem escape_eq_mend (s : List Char) : escape s = mend s := by
  have hfrom : escaper.writeFrom false s = mend s := by
    induction s using content_induction with
    | nil => rfl
    | mark s ih =>
      rw [Transducer.writeFrom_cons]
      exact congrArg (['\\', '"'] ++ ·) ih
    | backslash => rfl
    | pair c s ih =>
      have hnext : escaper.next true c = false := rfl
      have hemit : escaper.emit true c = [c] := rfl
      have hopen : escaper.writeFrom false ('\\' :: c :: s) =
          '\\' :: escaper.writeFrom true (c :: s) := Transducer.writeFrom_cons ..
      rw [hopen, Transducer.writeFrom_cons, hemit, hnext, ih]
      rfl
    | plain c s hq hb ih =>
      have hnext : escaper.next false c = false := by simp [escaper, hb]
      have hemit : escaper.emit false c = [c] := by simp [escaper, hq]
      rw [Transducer.writeFrom_cons, hemit, hnext, ih, mend_plain hq hb]
      rfl
  exact hfrom

theorem isContent_mend (s : List Char) : IsContent (mend s) := by
  induction s using content_induction with
  | nil => exact .nil
  | mark s ih => exact .pair '"' ih
  | backslash => exact .pair '\\' .nil
  | pair c s ih => exact .pair c ih
  | plain c s hq hb ih => exact mend_plain hq hb s ▸ .plain hq hb ih

/-- The content of a literal lacks no backslashes. -/
theorem mend_eq_self {s : List Char} (h : IsContent s) : mend s = s := by
  induction h with
  | nil => rfl
  | plain hq hb _ ih => rw [mend_plain hq hb, ih]
  | pair c _ ih => rw [mend.eq_4, ih]

end Text.Quoted

/-! ### Operands -/

namespace Operand

/-- Whether an operand can be written so that it is read again: a number is equal to a finite one
without a sign, as the zero with a sign is, and a text is whatever it may be. -/
def Writable : Operand → Prop
  | .text _ => True
  | .integer n => 0 ≤ n.toInt
  | .real x => ∃ m, x.equal (.finite false m) = true
  | .boolean _ => True

theorem WellFormed.writable {operand : Operand} (h : operand.WellFormed) : operand.Writable := by
  cases operand with
  | text s => trivial
  | integer n => exact h
  | real x =>
    obtain ⟨m, rfl⟩ := h
    exact ⟨m, by simp [Binary64.equal]⟩
  | boolean b => trivial

/-- The operand that the token of an operand stands for: the text with all its backslashes, or the
number without its sign. -/
def written : Operand → Operand
  | .text s => .text (String.ofList (Text.Quoted.mend s.toList))
  | .real (.finite _ m) => .real (.finite false m)
  | operand => operand

theorem WellFormed.written_eq_self {operand : Operand} (h : operand.WellFormed) :
    operand.written = operand := by
  cases operand with
  | text s =>
    have hcontent : Text.Quoted.IsContent s.toList := Token.Settled.wellFormed h
    rw [written, Text.Quoted.mend_eq_self hcontent, String.ofList_toList]
  | real x =>
    obtain ⟨m, rfl⟩ := h
    rfl
  | _ => rfl

/-- A number that can be written has no sign, unless it is zero. -/
theorem exists_of_writable_real {x : Binary64} (h : (Operand.real x).Writable) :
    ∃ negative m, x = .finite negative m ∧ (negative = true → m = .zero) := by
  obtain ⟨m, hequal⟩ := h
  cases x with
  | finite negative m' =>
    simp only [Binary64.equal, Bool.and_eq_true, Bool.or_eq_true, beq_iff_eq] at hequal
    refine ⟨negative, m', rfl, fun hnegative => hequal.1.resolve_left ?_⟩
    rw [hnegative]
    exact Bool.noConfusion
  | _ => exact absurd hequal (by simp [Binary64.equal])

end Operand

/-! ### Filters -/

/-- Whether a condition can be written so that it is read again. -/
structure Condition.Writable (c : Condition) : Prop where
  isWord_path : Token.IsWord c.path
  operand_eq_none_iff : c.operand = none ↔ c.comparator = .present
  operand : ∀ x ∈ c.operand, x.Writable

theorem Condition.WellFormed.writable {c : Condition} (h : c.WellFormed) : c.Writable where
  isWord_path := h.isWord_path
  operand_eq_none_iff := h.operand_eq_none_iff
  operand x hx := (h.operand x hx).writable

/-- The condition with the operand that is written for it. -/
def Condition.written (c : Condition) : Condition :=
  { c with operand := c.operand.map Operand.written }

theorem Condition.WellFormed.written_eq_self {c : Condition} (h : c.WellFormed) :
    c.written = c := by
  obtain ⟨path, comparator, operand⟩ := c
  cases operand with
  | none => rfl
  | some x =>
    have hx : x.written = x := (h.operand x rfl).written_eq_self
    simp [written, hx]

namespace Filter

/-- Whether a filter can be written so that it is read again, its texts apart. -/
def Writable : Filter → Prop
  | .condition c => c.Writable
  | .logical _ l r => l.Writable ∧ r.Writable
  | .array path f => Token.IsWord path ∧ f.Writable

/-- The filter with the operands that are written for it. -/
def written : Filter → Filter
  | .condition c => .condition c.written
  | .logical c l r => .logical c l.written r.written
  | .array path f => .array path f.written

@[simp] theorem connective?_written (f : Filter) : f.written.connective? = f.connective? := by
  cases f <;> rfl

theorem WellFormed.writable {f : Filter} (h : f.WellFormed) : f.Writable := by
  induction f with
  | condition c => exact Condition.WellFormed.writable h
  | logical c l r ihl ihr => exact ⟨ihl h.1, ihr h.2⟩
  | array path f ih => exact ⟨h.1, ih h.2⟩

/-- A filter that comes from a text is written as it is. -/
theorem WellFormed.written_eq_self {f : Filter} (h : f.WellFormed) : f.written = f := by
  induction f with
  | condition c => exact congrArg condition (Condition.WellFormed.written_eq_self h)
  | logical c l r ihl ihr => exact congrArg₂ (logical c) (ihl h.1) (ihr h.2)
  | array path f ih => exact congrArg (array path) (ih h.2)

end Filter

end ScimQuery
