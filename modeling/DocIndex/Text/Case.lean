/-! # Letter case

Names of tables, columns and tokenizers are the same if they differ only in the case of ASCII letters.
-/

namespace DocIndex

def foldCase (s : String) : String := String.ofList (s.toList.map Char.toLower)

/-- Whether two names differ at most in the case of ASCII letters. -/
def sameName (a b : String) : Bool := foldCase a == foldCase b

theorem sameName_iff {a b : String} :
    sameName a b = true ↔ a.toList.map Char.toLower = b.toList.map Char.toLower := by
  rw [sameName, beq_iff_eq, foldCase, foldCase, String.ofList_inj]

theorem foldCase_append (a b : String) : foldCase (a ++ b) = foldCase a ++ foldCase b := by
  rw [foldCase, String.toList_append, List.map_append, String.ofList_append]
  rfl

theorem sameName_refl (a : String) : sameName a a = true := by simp [sameName]

theorem sameName_comm (a b : String) : sameName a b = sameName b a := by
  simp [sameName, Bool.beq_eq_decide_eq, eq_comm]

theorem sameName_append_left (beginning a b : String) :
    sameName (beginning ++ a) (beginning ++ b) = sameName a b := by
  unfold sameName
  rw [foldCase_append, foldCase_append, Bool.eq_iff_iff, beq_iff_eq, beq_iff_eq, String.append_right_inj]

theorem sameName_append_right (a b ending : String) : sameName (a ++ ending) (b ++ ending) = sameName a b := by
  unfold sameName
  rw [foldCase_append, foldCase_append, Bool.eq_iff_iff, beq_iff_eq, beq_iff_eq, String.append_left_inj]

end DocIndex
