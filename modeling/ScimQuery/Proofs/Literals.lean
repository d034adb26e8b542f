import ScimQuery.Proofs.Lexing.Rendering
import ScimQuery.Proofs.Writable

/-!
# Literals that are written for texts

Any text can be written as a literal, and what is written is that literal and nothing else: it does
not end early, whatever backslashes, marks and brackets are in the text, and it does not run on. What
is read from it is the `payload` of the text. That is written as it is, so that no reading or writing
changes it any more (`tokenize_write`).
-/

namespace ScimQuery

namespace Text.Quoted

/-- A text lacks no backslashes if and only if it can be the content of a literal. -/
theorem mend_eq_self_iff {s : List Char} : mend s = s ↔ IsContent s := by
  constructor
  · intro h
    rw [← h]
    exact isContent_mend s
  · exact mend_eq_self

/-- What is read from the literal that is written for a text: the text with the backslashes that it
lacks, and with one space for each run of white space. -/
def payload (s : String) : String := String.ofList (collapse (mend s.toList))

theorem toList_write (s : String) :
    (write s).toList = (Token.quoted (String.ofList (mend s.toList))).text.toList := by
  rw [write, escape_eq_mend, String.toList_ofList, Token.toList_text_quoted, String.toList_ofList]

end Text.Quoted

namespace Token

open Text.Quoted (write payload mend IsContent)

/-- What is written for a text is one literal. -/
theorem renders_write (s : String) :
    Renders [quoted (String.ofList (mend s.toList))] (write s).toList := by
  have hcontent : (quoted (String.ofList (mend s.toList))).WellFormed := by
    simpa [WellFormed] using Text.Quoted.isContent_mend s.toList
  have hliteral := Renders.token hcontent (by simp) .nil
  rwa [List.append_nil, ← Text.Quoted.toList_write] at hliteral

theorem tokenize_write_eq (s : String) : tokenize (write s) = [quoted (payload s)] := by
  have hread := tokenize_of_renders (renders_write s)
  rw [String.ofList_toList] at hread
  rw [hread, repadAll, repad, repadAll, if_neg Bool.false_ne_true, String.toList_ofList, payload]

theorem settled_payload (s : String) : (quoted (payload s)).Settled := by
  have hmem : quoted (payload s) ∈ tokenize (write s) := by
    rw [tokenize_write_eq]
    exact List.mem_singleton_self _
  exact settled_of_mem_tokenize hmem

/-- The payloads are the contents of literals without runs of white space. -/
theorem payload_eq_self_iff {s : String} : payload s = s ↔ (quoted s).Settled := by
  constructor
  · intro h
    rw [← h]
    exact settled_payload s
  · intro h
    rw [payload, Text.Quoted.mend_eq_self h.wellFormed, h.collapse_eq s rfl, String.ofList_toList]

/-- Each text is written as one literal, which is read as the payload of the text. Backslashes are
added to a text only if it cannot be the content of a literal. The payload is written as a literal
that is read as the same payload. -/
theorem tokenize_write (s : String) :
    tokenize (write s) = [quoted (payload s)] ∧
      (mend s.toList = s.toList ↔ IsContent s.toList) ∧
      tokenize (write (payload s)) = [quoted (payload s)] := by
  refine ⟨tokenize_write_eq s, Text.Quoted.mend_eq_self_iff, ?_⟩
  rw [tokenize_write_eq, payload_eq_self_iff.mpr (settled_payload s)]

end Token

end ScimQuery
