/-!
# Letter case

Keywords, comparators and the names of topics are written in ASCII letters, and a word that is
compared with one of them may use either case of each letter. Letters outside ASCII keep their case:
none of them turns into an ASCII word.
-/

namespace ScimQuery.Text

/-- Lowers the ASCII letters of a text. -/
def lower (s : String) : String := String.ofList (s.toList.map Char.toLower)

/-- The code points of the capital letters. -/
theorem isCapital_iff {c : Char} : 'A' ≤ c ∧ c ≤ 'Z' ↔ 65 ≤ c.toNat ∧ c.toNat ≤ 90 :=
  and_congr UInt32.le_iff_toNat_le UInt32.le_iff_toNat_le

/-- A capital letter of ASCII becomes the small one, 32 code points above it, and every other
character stays as it is. -/
theorem toLower_eq (c : Char) :
    c.toLower = if 'A' ≤ c ∧ c ≤ 'Z' then Char.ofNat (c.toNat + 32) else c := by
  by_cases h : 'A' ≤ c ∧ c ≤ 'Z'
  · have hle : c.toNat ≤ 90 := (isCapital_iff.mp h).2
    have hnat : c.toLower.toNat = c.toNat + 32 := by
      have hval : c.toLower.val = c.val + 32 := congrArg Char.val (dif_pos h)
      rw [← Char.toNat_val, hval, UInt32.toNat_add]
      exact Nat.mod_eq_of_lt (Nat.lt_of_le_of_lt (Nat.add_le_add_right hle 32) (by decide))
    rw [if_pos h, ← hnat, Char.ofNat_toNat]
  · rw [if_neg h]
    exact dif_neg h

/-- A text is lowered letter by letter. -/
theorem toList_lower (s : String) :
    (lower s).toList = s.toList.map fun c =>
      if 'A' ≤ c ∧ c ≤ 'Z' then Char.ofNat (c.toNat + 32) else c := by
  rw [lower, String.toList_ofList]
  exact List.map_congr_left fun c _ => toLower_eq c

/-- Whether two texts are equal up to the case of ASCII letters. -/
def equalIgnoringCase (s t : String) : Bool := lower s == lower t

end ScimQuery.Text
