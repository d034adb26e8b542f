import ScimQuery.Text.Blank
import ScimQuery.Text.Quoted
import ScimQuery.Token

/-!
# From text to tokens

`tokenize` first sets brackets apart by spaces and reduces white space, and then takes the tokens
off the text from left to right. It accepts every text: a character that begins no token is skipped,
and so is a quotation mark that no other mark closes, after which its content is read like any other
text.
-/

namespace ScimQuery.Token

/-! ### Setting brackets apart -/

/-- What the padding of brackets has to know of the characters before. -/
structure PadState where
  /-- Whether an odd number of quotation marks has passed. -/
  inLiteral : Bool
  /-- Whether the last character was a backslash. -/
  afterBackslash : Bool

/-- Writes a space on both sides of each bracket that does not stand in a literal. Only a quotation
mark right behind a backslash is taken for a part of the literal. -/
def padder : Transducer PadState where
  start := ⟨false, false⟩
  next q c := ⟨if c == '"' && !q.afterBackslash then !q.inLiteral else q.inLiteral, c == '\\'⟩
  emit q c := if !q.inLiteral && (ofBracket? c).isSome then [' ', c, ' '] else [c]

/-- The text that tokens are taken from: brackets set apart, white space reduced, ends trimmed. -/
def prepare (s : List Char) : List Char := Text.trim (Text.collapse (padder.write s))

/-! ### Taking tokens off a text -/

/-- Appends the tokens of a text to the reversed list `out`. -/
def scanOnto (out : List Token) : List Char → List Token
  | [] => out.reverse
  | c :: rest =>
    match ofBracket? c with
    | some token => scanOnto (token :: out) rest
    | none =>
      if isWordChar c then
        scanOnto (.word (String.ofList (c :: rest.takeWhile isWordChar)) :: out)
          (rest.dropWhile isWordChar)
      else if c = '"' then
        match _h : Text.Quoted.read? rest with
        | some (content, after) => scanOnto (.quoted (String.ofList content) :: out) after
        | none => scanOnto out rest
      else scanOnto out rest
termination_by s => s.length
decreasing_by
  all_goals simp only [List.length_cons]
  · omega
  · have := (List.dropWhile_suffix (l := rest) isWordChar).length_le
    omega
  · have := Text.Quoted.length_of_read? _h
    omega
  all_goals omega

/-- The tokens of a text, each the longest that begins at the first place where one can. -/
def scan (s : List Char) : List Token := scanOnto [] s

theorem scanOnto_eq (out : List Token) (s : List Char) :
    scanOnto out s = out.reverse ++ scan s := by
  induction hn : s.length using Nat.strongRecOn generalizing out s with
  | _ n ih =>
    subst hn
    have step : ∀ (t : Token) (out : List Token) (r : List Char), r.length < s.length →
        scanOnto (t :: out) r = out.reverse ++ scanOnto [t] r := by
      intro t out r hr
      rw [ih _ hr (t :: out) r rfl, ih _ hr [t] r rfl]
      simp
    cases s with
    | nil => simp [scan, scanOnto]
    | cons c rest =>
      have hdrop := (List.dropWhile_suffix (l := rest) isWordChar).length_le
      rw [scan, scanOnto.eq_def out, scanOnto.eq_def []]
      simp only
      split
      · exact step _ _ _ (by simp)
      · split
        · exact step _ _ _ (by simp only [List.length_cons]; omega)
        · split
          · split
            · rename_i h
              have := Text.Quoted.length_of_read? h
              exact step _ _ _ (by simp only [List.length_cons]; omega)
            · exact ih _ (by simp) out rest rfl
          · exact ih _ (by simp) out rest rfl

/-! ### What stands first in a text -/

@[simp] theorem scan_nil : scan [] = [] := by simp [scan, scanOnto]

/-- A bracket is a token of its own. -/
theorem scan_bracket {c : Char} {token : Token} (h : ofBracket? c = some token) (s : List Char) :
    scan (c :: s) = token :: scan s := by
  rw [scan, scanOnto, h]
  exact scanOnto_eq [token] s

/-- A word goes on as long as it can. -/
theorem scan_word {c : Char} (h : isWordChar c) (s : List Char) :
    scan (c :: s) =
      .word (String.ofList (c :: s.takeWhile isWordChar)) :: scan (s.dropWhile isWordChar) := by
  have hb : ofBracket? c = none := by
    unfold ofBracket?
    split <;> simp_all +decide
  rw [scan, scanOnto, hb]
  simp only [h, if_true]
  exact scanOnto_eq [_] _

/-- A quotation mark that is closed begins a literal. -/
theorem scan_quoted {s content rest : List Char}
    (h : Text.Quoted.read? s = some (content, rest)) :
    scan ('"' :: s) = .quoted (String.ofList content) :: scan rest := by
  rw [scan, scanOnto, show ofBracket? '"' = none from rfl]
  simp only [show isWordChar '"' = false from rfl, Bool.false_eq_true, if_false, if_true]
  split
  · rename_i h'
    rw [h, Option.some.injEq, Prod.mk.injEq] at h'
    rw [← h'.1, ← h'.2]
    exact scanOnto_eq [_] _
  · simp_all

/-- A quotation mark that is not closed is skipped. -/
theorem scan_unclosed {s : List Char} (h : Text.Quoted.read? s = none) :
    scan ('"' :: s) = scan s := by
  rw [scan, scanOnto, show ofBracket? '"' = none from rfl]
  simp only [show isWordChar '"' = false from rfl, Bool.false_eq_true, if_false, if_true]
  split
  · simp_all
  · rfl

/-- A character that begins no token is skipped. -/
theorem scan_skip {c : Char} (hb : ofBracket? c = none) (hw : isWordChar c = false) (hq : c ≠ '"')
    (s : List Char) : scan (c :: s) = scan s := by
  rw [scan, scanOnto, hb]
  simp only [hw, Bool.false_eq_true, if_false, hq]
  rfl

/-! ### Filters -/

/-- The tokens of a filter. -/
def tokenize (filter : String) : List Token := scan (prepare filter.toList)

end ScimQuery.Token
