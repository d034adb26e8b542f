import Mathlib.Data.List.Forall2
import ScimQuery.Proofs.Patterns
import ScimQuery.Proofs.Runs

/-!
# What a search finds

A condition on a part of a text is compiled to a pattern and the option to ignore the case of
letters. `ReadsAs` are the rules by which an engine reads a pattern. They have a list of operators
of their own and do not look at the one that decides which characters `escape` marks, so that a
character missing there would be read as an operator here.

`Engine.Finds` says what it means that a subject is searched for a pattern: some part of the subject
matches the items of the pattern one after the other, a literal by a character that the engine takes
for the same, and an anchor only at the end of the subject that it stands for.

A search finds the text of its operand where the comparator wants it, and nothing else
(`compile_search_finds`). What an engine makes of the other operators plays no role, since no text
brings one into its pattern.
-/

namespace ScimQuery

namespace Pattern

/-! ### The rules of reading -/

/-- The characters that an engine takes for operators where they stand alone. -/
def operators : List Char :=
  ['.', '*', '+', '?', '^', '$', '\x7b', '\x7d', '(', ')', '|', '[', ']']

/-- What an engine reads a pattern as. -/
inductive ReadsAs : List Char → List Item → Prop
  | nil : ReadsAs [] []
  /-- A backslash takes its meaning from the character behind it. -/
  | escaped (c : Char) {s : List Char} {items : List Item} (hs : ReadsAs s items) :
      ReadsAs ('\\' :: c :: s) (.literal c :: items)
  | dangling : ReadsAs ['\\'] [.operator '\\']
  | operator {c : Char} {s : List Char} {items : List Item} (hc : c ∈ operators)
      (hs : ReadsAs s items) : ReadsAs (c :: s) (.operator c :: items)
  | plain {c : Char} {s : List Char} {items : List Item} (hc : c ∉ operators) (hne : c ≠ '\\')
      (hs : ReadsAs s items) : ReadsAs (c :: s) (.literal c :: items)

/-- The characters that a backslash is put in front of are the operators and the backslash. -/
theorem contains_special_iff {c : Char} : special.contains c = true ↔ c ∈ operators ∨ c = '\\' := by
  simp [special, operators, or_assoc]

/-- The rules read every pattern, and in one way. -/
theorem readsAs_iff {s : List Char} {items : List Item} : ReadsAs s items ↔ read s = items := by
  constructor
  · intro h
    induction h with
    | nil => rfl
    | escaped c _ ih => rw [read, ih]
    | dangling => rfl
    | @operator c s _ hc _ ih =>
      have hne : c ≠ '\\' := fun heq => absurd (heq ▸ hc) (by decide)
      have hspecial : special.contains c = true := contains_special_iff.mpr (.inl hc)
      rw [read.eq_3 c s fun _ _ hcons => absurd hcons hne, if_pos hspecial, ih]
    | plain hc hne _ ih =>
      have hspecial := mt contains_special_iff.mp (not_or.mpr ⟨hc, hne⟩)
      rw [read_plain (Bool.eq_false_iff.mpr hspecial), ih]
  · rintro rfl
    fun_induction read s with
    | case1 => exact .nil
    | case2 c s ih => exact .escaped c ih
    | case3 c s hcons ih =>
      by_cases hne : c = '\\'
      · -- with a character behind it, the backslash would have been read with that one
        cases s with
        | nil => exact hne ▸ .dangling
        | cons d s => exact (hcons d s hne rfl).elim
      · by_cases hc : c ∈ operators
        · rw [if_pos (contains_special_iff.mpr (.inl hc))]
          exact .operator hc ih
        · rw [if_neg (mt contains_special_iff.mp (not_or.mpr ⟨hc, hne⟩))]
          exact .plain hc hne ih

/-! ### Searching a subject -/

/-- What a search takes for granted about characters and operators. -/
structure Engine where
  /-- Whether a character of a pattern matches a character of a subject, which may depend on the
  case of letters or not. -/
  same : Char → Char → Prop
  /-- Whether an operator other than an anchor, and the items behind it, match between the two parts
  of a subject. -/
  operator : Char → List Item → List Char → List Char → Prop

namespace Engine

variable (E : Engine)

/-- Whether items match the beginning of `rest`, with `front` before it in the subject. -/
def MatchesAt : List Item → List Char → List Char → Prop
  | [], _, _ => True
  | .literal _ :: _, _, [] => False
  | .literal c :: items, front, d :: rest => E.same c d ∧ MatchesAt items (front ++ [d]) rest
  | .operator '^' :: items, front, rest => front = [] ∧ MatchesAt items front rest
  | .operator '$' :: items, front, rest => rest = [] ∧ MatchesAt items front rest
  | .operator c :: items, front, rest => E.operator c items front rest

/-- Whether a pattern matches somewhere in a subject. -/
def Finds (pattern subject : String) : Prop :=
  ∃ items front rest, ReadsAs pattern.toList items ∧ subject.toList = front ++ rest ∧
    E.MatchesAt items front rest

/-- A part of a subject spells a text, up to what the engine takes for the same. -/
def Spells (part : List Char) (text : String) : Prop := List.Forall₂ E.same text.toList part

theorem finds_iff (pattern subject : String) :
    E.Finds pattern subject ↔
      ∃ front rest, subject.toList = front ++ rest ∧
        E.MatchesAt (read pattern.toList) front rest := by
  simp only [Finds, readsAs_iff, exists_and_left, exists_eq_left']

/-- Literals match a part of the subject that spells them, and the items behind them match right
behind that part. -/
theorem matchesAt_literals_append (s : List Char) (items : List Item) (front rest : List Char) :
    E.MatchesAt (s.map .literal ++ items) front rest ↔
      ∃ part back, rest = part ++ back ∧ List.Forall₂ E.same s part ∧
        E.MatchesAt items (front ++ part) back := by
  induction s generalizing front rest with
  | nil => simp
  | cons c s ih =>
    cases rest with
    | nil => simp [MatchesAt]
    | cons d rest =>
      rw [List.map_cons, List.cons_append, MatchesAt, ih]
      constructor
      · rintro ⟨hsame, part, back, rfl, hpart, hitems⟩
        rw [List.append_assoc] at hitems
        exact ⟨d :: part, back, rfl, .cons hsame hpart, hitems⟩
      · rintro ⟨part, back, hrest, hpart, hitems⟩
        cases hpart with
        | @cons _ e _ part hsame hpart =>
          rw [List.cons_append, List.cons.injEq] at hrest
          obtain ⟨rfl, rfl⟩ := hrest
          refine ⟨hsame, part, back, rfl, hpart, ?_⟩
          rwa [List.append_assoc]

theorem matchesAt_literals (s front rest : List Char) :
    E.MatchesAt (s.map .literal) front rest ↔
      ∃ part back, rest = part ++ back ∧ List.Forall₂ E.same s part := by
  have h := E.matchesAt_literals_append s [] front rest
  simpa [MatchesAt] using h

/-! ### Searching for a text -/

/-- The pattern for a text is found where the text stands anywhere in the subject. -/
theorem finds_escape_iff (text subject : String) :
    E.Finds (escape text) subject ↔ ∃ part, part <:+: subject.toList ∧ E.Spells part text := by
  rw [finds_iff, read_escape]
  simp only [matchesAt_literals]
  constructor
  · rintro ⟨front, rest, hsubject, part, back, rfl, hpart⟩
    exact ⟨part, ⟨front, back, by rw [hsubject, List.append_assoc]⟩, hpart⟩
  · rintro ⟨part, ⟨front, back, hsubject⟩, hpart⟩
    rw [List.append_assoc] at hsubject
    exact ⟨front, part ++ back, hsubject.symm, part, back, rfl, hpart⟩

/-- With an anchor in front of it, the pattern is found where the subject begins with the text. -/
theorem finds_startAnchor_iff (text subject : String) :
    E.Finds ("^" ++ escape text) subject ↔
      ∃ part, part <+: subject.toList ∧ E.Spells part text := by
  rw [finds_iff, read_startAnchor]
  simp only [MatchesAt, matchesAt_literals]
  constructor
  · rintro ⟨front, rest, hsubject, rfl, part, back, rfl, hpart⟩
    exact ⟨part, ⟨back, hsubject.symm⟩, hpart⟩
  · rintro ⟨part, ⟨back, hsubject⟩, hpart⟩
    exact ⟨[], part ++ back, hsubject.symm, rfl, part, back, rfl, hpart⟩

/-- With an anchor behind it, the pattern is found where the subject ends in the text. -/
theorem finds_endAnchor_iff (text subject : String) :
    E.Finds (escape text ++ "$") subject ↔
      ∃ part, part <:+ subject.toList ∧ E.Spells part text := by
  rw [finds_iff, read_endAnchor]
  simp only [matchesAt_literals_append, MatchesAt, and_true]
  constructor
  · rintro ⟨front, rest, hsubject, part, back, rfl, hpart, rfl⟩
    rw [List.append_nil] at hsubject
    exact ⟨part, ⟨front, hsubject.symm⟩, hpart⟩
  · rintro ⟨part, ⟨front, hsubject⟩, hpart⟩
    exact ⟨front, part, hsubject.symm, part, [], (List.append_nil part).symm, hpart, rfl⟩

end Engine

/-- The pattern for a text is read as the characters of the text, with no operator among them, and
patterns are put together as texts are. A condition that searches for an operand is therefore met by
the subjects that hold its text, that begin with it or that end in it, as the comparator says,
whatever characters are taken for the same and whatever other operators there are. -/
theorem compile_search_finds :
    (∀ text items, ReadsAs (escape text).toList items ↔ items = text.toList.map .literal) ∧
      (∀ s t, escape (s ++ t) = escape s ++ escape t) ∧
      ∀ (E : Engine) (path : String) (x : Operand),
        (∃ pattern, Filter.compile (.condition ⟨path, .contains, some x⟩) =
            .single path (.object [("$options", .string "i"), ("$regex", .string pattern)]) ∧
          ∀ subject, E.Finds pattern subject ↔
            ∃ part, part <:+: subject.toList ∧ E.Spells part x.display) ∧
        (∃ pattern, Filter.compile (.condition ⟨path, .startsWith, some x⟩) =
            .single path (.object [("$options", .string "i"), ("$regex", .string pattern)]) ∧
          ∀ subject, E.Finds pattern subject ↔
            ∃ part, part <+: subject.toList ∧ E.Spells part x.display) ∧
        ∃ pattern, Filter.compile (.condition ⟨path, .endsWith, some x⟩) =
            .single path (.object [("$options", .string "i"), ("$regex", .string pattern)]) ∧
          ∀ subject, E.Finds pattern subject ↔
            ∃ part, part <:+ subject.toList ∧ E.Spells part x.display := by
  refine ⟨fun text items => ?_, escape_append, fun E path x => ?_⟩
  · rw [readsAs_iff, read_escape, eq_comm]
  · have hcompile := fun comparator => (Filter.compile_condition ⟨path, comparator, some x⟩).trans
      (Condition.query_eq path comparator (some x))
    refine ⟨?_, ?_, ?_⟩
    · exact ⟨escape x.display, hcompile .contains, E.finds_escape_iff x.display⟩
    · exact ⟨"^" ++ escape x.display, hcompile .startsWith, E.finds_startAnchor_iff x.display⟩
    · exact ⟨escape x.display ++ "$", hcompile .endsWith, E.finds_endAnchor_iff x.display⟩

end Pattern

end ScimQuery
