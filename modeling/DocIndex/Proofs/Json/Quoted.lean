import DocIndex.Json.Printer
import DocIndex.Json.Reader
import Mathlib.Data.List.Basic

/-! # Quoted strings and objects of strings

Text in quotes reads back as it was, whatever characters it has, and so does an object all of whose
members are strings.
-/

namespace DocIndex

namespace Json

theorem readChars_of_plain {c : Char} (hq : c ≠ '"') (hb : c ≠ '\\') (h32 : 32 ≤ c.toNat) (rest : List Char) :
    readChars (c :: rest) = (readChars rest).map fun p => (c :: p.1, p.2) := by
  rw [readChars]
  · have hctrl : ¬(c.toNat < 32 ∨ c = '\\') := by
      rintro (h | h)
      · omega
      · exact hb h
    rw [if_neg hctrl]
    cases readChars rest <;> rfl
  · intro h
    exact hq h
  · intro a b d e r h _
    exact hb h
  · intro d r h _
    exact hb h

theorem hexQuad?_control : ∀ n < 32, hexQuad? '0' '0' (hexDigit (n / 16)) (hexDigit n) = some n := by
  decide

theorem readChars_control {c : Char} (h32 : c.toNat < 32) (rest : List Char) :
    readChars ('\\' :: 'u' :: '0' :: '0' :: hexDigit (c.toNat / 16) :: hexDigit c.toNat :: rest) =
      (readChars rest).map fun p => (c :: p.1, p.2) := by
  rw [readChars, hexQuad?_control c.toNat h32]
  have hhigh : ¬(0xd800 ≤ c.toNat ∧ c.toNat < 0xdc00) := by omega
  have hlow : ¬(0xdc00 ≤ c.toNat ∧ c.toNat < 0xe000) := by omega
  simp only [Option.bind_eq_bind, Option.bind_some, if_neg hhigh, if_neg hlow, Char.ofNat_toNat]
  cases readChars rest <;> rfl

theorem readChars_escapeChar (c : Char) (rest : List Char) :
    readChars (escapeChar c ++ rest) = (readChars rest).map fun p => (c :: p.1, p.2) := by
  unfold escapeChar
  split_ifs with h1 h2 h3 h4 h5 h6 h7 h8
  · subst h1; simp [readChars, simpleEscape?]; cases readChars rest <;> rfl
  · subst h2; simp [readChars, simpleEscape?]; cases readChars rest <;> rfl
  · subst h3; simp [readChars, simpleEscape?]; cases readChars rest <;> rfl
  · subst h4; simp [readChars, simpleEscape?]; cases readChars rest <;> rfl
  · subst h5; simp [readChars, simpleEscape?]; cases readChars rest <;> rfl
  · subst h6; simp [readChars, simpleEscape?]; cases readChars rest <;> rfl
  · subst h7; simp [readChars, simpleEscape?]; cases readChars rest <;> rfl
  · exact readChars_control h8 rest
  · exact readChars_of_plain h1 h2 (by omega) rest

theorem readChars_flatMap_escapeChar (cs rest : List Char) :
    readChars (cs.flatMap escapeChar ++ '"' :: rest) = some (cs, rest) := by
  induction cs with
  | nil => simp [readChars]
  | cons c cs ih =>
    rw [List.flatMap_cons, List.append_assoc, readChars_escapeChar, ih]
    rfl

/-! ## Objects of strings -/

def ofStrings (members : List (String × String)) : Json := .object (members.map fun m => (m.1, .string m.2))

def memberChars (m : String × String) : List Char := quoteChars m.1.toList ++ ':' :: quoteChars m.2.toList

/-- The characters of some members, with commas between them. -/
def membersChars : List (String × String) → List Char
  | [] => []
  | [m] => memberChars m
  | m :: rest => memberChars m ++ ',' :: membersChars rest

theorem toList_members (members : List (String × String)) :
    (",".intercalate (memberTexts (members.map fun m => (m.1, .string m.2)))).toList = membersChars members := by
  induction members with
  | nil => simp [memberTexts, membersChars]
  | cons m rest ih =>
    have hm : (quote m.1 ++ ":" ++ (Json.string m.2).text).toList = memberChars m := by
      simp [quote, text, memberChars]
    cases rest with
    | nil => simpa [memberTexts, membersChars] using hm
    | cons n more =>
      simp only [List.map_cons, memberTexts] at ih ⊢
      rw [String.intercalate_cons_cons, String.toList_append, String.toList_append, ih, hm]
      simp [membersChars]

theorem toList_text_ofStrings (members : List (String × String)) :
    (ofStrings members).text.toList = '\x7b' :: (membersChars members ++ ['\x7d']) := by
  simp only [ofStrings, text, String.toList_append, toList_members]
  rfl

theorem skipBlanks_of_not_blank {c : Char} (h : isBlank c = false) (rest : List Char) :
    skipBlanks (c :: rest) = c :: rest := by
  simp [skipBlanks, h]

theorem readValue_quote (fuel : Nat) (s : String) (rest : List Char) :
    readValue (fuel + 1) (quoteChars s.toList ++ rest) = some (.string s, rest) := by
  have h : quoteChars s.toList ++ rest = '"' :: (s.toList.flatMap escapeChar ++ '"' :: rest) := by
    simp [quoteChars]
  rw [h]
  simp [readValue, skipBlanks, isBlank, readChars_flatMap_escapeChar]

theorem readMembers_memberChars (fuel : Nat) (m : String × String) (rest : List Char) :
    readMembers (fuel + 2) (memberChars m ++ rest) =
      match skipBlanks rest with
      | '\x7d' :: after => some ([(m.1, .string m.2)], after)
      | ',' :: rest => (readMembers (fuel + 1) rest).map fun p => ((m.1, .string m.2) :: p.1, p.2)
      | _ => none := by
  have h : memberChars m ++ rest =
      '"' :: (m.1.toList.flatMap escapeChar ++ '"' :: ':' :: (quoteChars m.2.toList ++ rest)) := by
    simp [memberChars, quoteChars]
  rw [h, readMembers, skipBlanks_of_not_blank (by decide)]
  simp only [readChars_flatMap_escapeChar, Option.bind_eq_bind, Option.bind_some]
  rw [skipBlanks_of_not_blank (by decide)]
  simp only [readValue_quote, Option.bind_some, String.ofList_toList]
  generalize skipBlanks rest = blanks
  split
  · rfl
  · rename_i more
    show _ = (readMembers (fuel + 1) more).map _
    cases readMembers (fuel + 1) more <;> rfl
  · rename_i hb hc
    simp

theorem readMembers_membersChars (members : List (String × String)) (hne : members ≠ []) (fuel : Nat)
    (hfuel : members.length < fuel) (after : List Char) :
    readMembers fuel (membersChars members ++ '\x7d' :: after) =
      some (members.map fun m => (m.1, .string m.2), after) := by
  induction members generalizing fuel with
  | nil => exact absurd rfl hne
  | cons m rest ih =>
    obtain ⟨f, rfl⟩ : ∃ f, fuel = f + 2 := ⟨fuel - 2, by simp at hfuel; omega⟩
    cases rest with
    | nil =>
      simp only [membersChars]
      rw [readMembers_memberChars]
      simp [skipBlanks, isBlank]
    | cons n more =>
      have hrest := ih (by simp) (f + 1) (by simp at hfuel ⊢; omega)
      simp only [membersChars, List.append_assoc]
      rw [readMembers_memberChars]
      simp only [List.cons_append]
      simp [skipBlanks, isBlank, hrest]

end Json

end DocIndex
