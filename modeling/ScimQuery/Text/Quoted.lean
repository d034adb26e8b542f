import ScimQuery.Text.Transducer

/-!
# Quoted literals

A literal stands between two quotation marks. Inside it a backslash and the character after it form
a pair, and a quotation mark that is not the second half of a pair ends the literal. Pairs are never
decoded: the content of a literal is the text between its marks as it is written.

`read?` takes a literal off a text and `escape` makes any text fit to stand in one: it adds the
backslashes that are missing and changes nothing else.
-/

namespace ScimQuery.Text.Quoted

/-! ### Reading -/

/-- Splits a text at the quotation mark that ends a literal, behind the reversed content `out`. -/
def readOnto (out : List Char) : List Char → Option (List Char × List Char)
  | [] => none
  | '"' :: rest => some (out.reverse, rest)
  | '\\' :: c :: rest => readOnto (c :: '\\' :: out) rest
  | c :: rest => readOnto (c :: out) rest

/-- The content of the literal whose opening mark stands right before a text, and what follows its
closing mark. There is none if no mark closes it. -/
def read? (s : List Char) : Option (List Char × List Char) := readOnto [] s

theorem length_readOnto {out s content rest : List Char}
    (h : readOnto out s = some (content, rest)) : rest.length < s.length := by
  fun_induction readOnto out s with
  | case1 => simp at h
  | case2 out r => simp_all
  | case3 out c r ih => have := ih h; simp only [List.length_cons]; omega
  | case4 out c r _ _ ih => have := ih h; simp only [List.length_cons]; omega

theorem readOnto_append (out out' s : List Char) :
    readOnto (out' ++ out) s = (readOnto out' s).map fun r => (out.reverse ++ r.1, r.2) := by
  fun_induction readOnto out' s with
  | case1 => simp [readOnto]
  | case2 => simp [readOnto]
  | case3 out' c r ih => simpa [readOnto] using ih
  | case4 out' c r hq hb ih => rw [readOnto.eq_4 _ _ _ hq hb]; exact ih

/-- What has been read already stands in front of the content. -/
theorem readOnto_eq (out s : List Char) :
    readOnto out s = (read? s).map fun r => (out.reverse ++ r.1, r.2) :=
  readOnto_append out [] s

@[simp] theorem read?_nil : read? [] = none := rfl

@[simp] theorem read?_quote (s : List Char) : read? ('"' :: s) = some ([], s) := rfl

@[simp] theorem read?_pair (c : Char) (s : List Char) :
    read? ('\\' :: c :: s) = (read? s).map fun r => ('\\' :: c :: r.1, r.2) :=
  readOnto_eq [c, '\\'] s

@[simp] theorem read?_backslash : read? ['\\'] = none := rfl

theorem read?_cons {c : Char} (hq : c ≠ '"') (hb : c ≠ '\\') (s : List Char) :
    read? (c :: s) = (read? s).map fun r => (c :: r.1, r.2) := by
  rw [read?, readOnto.eq_4 _ _ _ hq fun _ _ h => absurd h hb]
  exact readOnto_eq [c] s

/-- What follows a literal is shorter than what it was taken from. -/
theorem length_of_read? {s content rest : List Char} (h : read? s = some (content, rest)) :
    rest.length < s.length :=
  length_readOnto h

/-! ### Writing -/

/-- Writes a backslash before each quotation mark that is not the second half of a pair, and a
second one after a final backslash that begins no pair. The state tells whether the character before
began a pair. -/
def escaper : Transducer Bool where
  start := false
  next inPair c := !inPair && c == '\\'
  emit inPair c := if !inPair && c == '"' then ['\\', '"'] else [c]
  finish inPair := if inPair then ['\\'] else []

/-- Makes a text fit to be the content of a literal. -/
def escape (s : List Char) : List Char := escaper.write s

/-- The literal whose content is a text, up to the backslashes that `escape` adds. -/
def write (s : String) : String := String.ofList ('"' :: escape s.toList ++ ['"'])

end ScimQuery.Text.Quoted
