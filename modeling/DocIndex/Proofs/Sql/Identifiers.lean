import DocIndex.Proofs.Sql.Placeholders

/-! # Identifiers within statements

A name is quoted by doubling its double quotes and putting one more at either end. Whatever the name is made of, it does
not show in the scan of a text that it is put into: each doubled quote closes and opens again, and in between nothing
counts. A reader that takes a doubled quote as one gets the name back and stops where it ends, provided that the text
goes on with something other than a double quote, which would be taken as one more quote of the name.
-/

namespace DocIndex

namespace Scan

/-- Where the placeholders of a text stand, if the quote `q` is open before. -/
def marks : Option Char → List Char → List Nat
  | _, [] => []
  | some q, c :: cs => (marks (if c = q then none else some q) cs).map (· + 1)
  | none, c :: cs =>
    (if c = '?' then [0] else []) ++ (marks (if c = '"' ∨ c = '\'' then some c else none) cs).map (· + 1)

theorem length_marks (q : Option Char) (cs : List Char) : (marks q cs).length = count q cs := by
  induction cs generalizing q with
  | nil => cases q <;> rfl
  | cons c rest ih =>
    cases q with
    | none =>
      rw [marks, count, List.length_append, List.length_map, ih]
      split <;> rfl
    | some quote => rw [marks, count, List.length_map, ih]

theorem marks_append (q : Option Char) (cs ds : List Char) :
    marks q (cs ++ ds) = marks q cs ++ (marks (state q cs) ds).map (· + cs.length) := by
  induction cs generalizing q with
  | nil => simp [marks, state]
  | cons c rest ih =>
    cases q with
    | none =>
      rw [List.cons_append, marks, marks, state, ih, List.map_append, List.map_map, List.append_assoc]
      rfl
    | some quote =>
      rw [List.cons_append, marks, marks, state, ih, List.map_append, List.map_map]
      rfl

theorem marks_eq_nil {q : Option Char} {cs : List Char} (h : count q cs = 0) : marks q cs = [] := by
  rw [← List.length_eq_zero_iff, length_marks, h]

/-- What stands between closed texts and has no placeholders only moves those behind it. -/
theorem marks_between {before inner : List Char} (hbefore : state none before = none)
    (hinner : state none inner = none) (hnone : count none inner = 0) (after : List Char) :
    marks none (before ++ inner ++ after) =
      marks none before ++ (marks none after).map (· + (before ++ inner).length) := by
  rw [marks_append, marks_append, state_append, hbefore, hinner, marks_eq_nil hnone, List.map_nil, List.append_nil]

end Scan

/-! ## Reading identifiers -/

/-- The identifier at the front of a text, and what follows it. -/
def readIdentifier? : List Char → Option (String × List Char)
  | '"' :: rest => (quoted? '"' rest).map fun p => (String.ofList p.1, p.2)
  | _ => none

theorem toList_quoteIdentifier (name : String) :
    (quoteIdentifier name).toList = '"' :: (doubleQuotes name.toList ++ ['"']) := by
  simp [quoteIdentifier]

theorem quoted?_cons_of_ne {quote c : Char} (hc : c ≠ quote) {cs : List Char} (hcs : cs ≠ []) :
    quoted? quote (c :: cs) = (quoted? quote cs).map fun p => (c :: p.1, p.2) := by
  obtain ⟨d, rest, rfl⟩ := List.exists_cons_of_ne_nil hcs
  rw [quoted?, if_neg hc]

theorem quoted?_doubleQuotes (cs : List Char) {after : List Char} (hafter : after.head? ≠ some '"') :
    quoted? '"' (doubleQuotes cs ++ '"' :: after) = some (cs, after) := by
  induction cs with
  | nil =>
    cases after with
    | nil => rfl
    | cons d rest =>
      have hd : d ≠ '"' := fun h => hafter (by rw [h]; rfl)
      rw [doubleQuotes, List.nil_append, quoted?, if_pos rfl, if_neg hd]
  | cons c rest ih =>
    unfold doubleQuotes
    split
    · rename_i hc
      rw [List.cons_append, List.cons_append, quoted?, if_pos rfl, if_pos rfl, ih, hc]
      rfl
    · rename_i hc
      rw [List.cons_append, quoted?_cons_of_ne hc (by simp), ih]
      rfl

theorem readIdentifier?_quoteIdentifier (name : String) {after : List Char} (hafter : after.head? ≠ some '"') :
    readIdentifier? ((quoteIdentifier name).toList ++ after) = some (name, after) := by
  have hrest : (quoteIdentifier name).toList ++ after = '"' :: (doubleQuotes name.toList ++ '"' :: after) := by
    simp [toList_quoteIdentifier]
  rw [hrest, readIdentifier?, quoted?_doubleQuotes name.toList hafter, Option.map_some, String.ofList_toList]

/-- The text behind a quoted name tells where the name ends, so text and name can be told apart. -/
theorem eq_of_quoteIdentifier_append {name other : String} {after rest : List Char} (hafter : after.head? ≠ some '"')
    (hrest : rest.head? ≠ some '"')
    (h : (quoteIdentifier other).toList ++ rest = (quoteIdentifier name).toList ++ after) :
    other = name ∧ rest = after := by
  have hread := readIdentifier?_quoteIdentifier other hrest
  rw [h, readIdentifier?_quoteIdentifier name hafter] at hread
  obtain ⟨rfl, rfl⟩ := Prod.mk.inj (Option.some.inj hread)
  exact ⟨rfl, rfl⟩

theorem quoteIdentifier_injective : Function.Injective quoteIdentifier := by
  intro name other h
  have hsame : (quoteIdentifier name).toList ++ [] = (quoteIdentifier other).toList ++ [] := by rw [h]
  exact (eq_of_quoteIdentifier_append (by simp) (by simp) hsame).1

/-- A quoted name in a text, behind closed text and not in front of a double quote: the scan finds the placeholders
before and after it, at their places, and ends as it does with what comes after; whoever reads an identifier where the
name stands gets this name and is left with what comes after. Only this name with this text after it makes the same
statement, and no two names are quoted alike. -/
theorem quoteIdentifier_between {before after : String} (name : String)
    (hbefore : Scan.state none before.toList = none) (hafter : after.toList.head? ≠ some '"') :
    Scan.marks none (before ++ quoteIdentifier name ++ after).toList =
        Scan.marks none before.toList ++
          (Scan.marks none after.toList).map (· + (before ++ quoteIdentifier name).length) ∧
      placeholders (before ++ quoteIdentifier name ++ after) = placeholders before + placeholders after ∧
      Scan.state none (before ++ quoteIdentifier name ++ after).toList = Scan.state none after.toList ∧
      readIdentifier? ((before ++ quoteIdentifier name ++ after).toList.drop before.length) =
        some (name, after.toList) ∧
      (∀ other rest : String, rest.toList.head? ≠ some '"' →
        before ++ quoteIdentifier other ++ rest = before ++ quoteIdentifier name ++ after →
          other = name ∧ rest = after) ∧
      ∀ other, quoteIdentifier other = quoteIdentifier name → other = name := by
  obtain ⟨hclosed, hnone⟩ := Counts.quoteIdentifier name
  have hmarks := Scan.marks_between hbefore hclosed hnone after.toList
  have htext : ∀ other rest : String, (before ++ quoteIdentifier other ++ rest).toList =
      before.toList ++ ((quoteIdentifier other).toList ++ rest.toList) := by
    intro other rest
    rw [String.toList_append, String.toList_append, List.append_assoc]
  refine ⟨?_, ?_, ?_, ?_, ?_, fun other h => quoteIdentifier_injective h⟩
  · rw [htext, ← List.append_assoc, hmarks, ← String.toList_append, String.length_toList]
  · unfold placeholders
    rw [htext, ← List.append_assoc, ← Scan.length_marks, hmarks, List.length_append, List.length_map,
      Scan.length_marks, Scan.length_marks]
  · rw [htext, Scan.state_append, Scan.state_append, hbefore, hclosed]
  · rw [htext, ← String.length_toList, List.drop_left, readIdentifier?_quoteIdentifier name hafter]
  · intro other rest hrest hsame
    have hlists := congrArg String.toList hsame
    rw [htext, htext] at hlists
    obtain ⟨hname, hlist⟩ := eq_of_quoteIdentifier_append hafter hrest (List.append_cancel_left hlists)
    exact ⟨hname, String.toList_inj.mp hlist⟩

/-- A name that is made to look like the end of an identifier and a comparison with a value. -/
def forgedName : String := "a\" = ? OR '"

theorem quoteIdentifier_between_forged :
    placeholders ("SELECT ? FROM " ++ quoteIdentifier forgedName ++ " WHERE x = ?") = 2 ∧
      Scan.marks none ("SELECT ? FROM " ++ quoteIdentifier forgedName ++ " WHERE x = ?").toList = [7, 39] ∧
      readIdentifier? (("SELECT ? FROM " ++ quoteIdentifier forgedName ++ " WHERE x = ?").toList.drop 14) =
        some (forgedName, " WHERE x = ?".toList) := by
  have hbefore : Scan.state none "SELECT ? FROM ".toList = none := by decide
  have hafter : " WHERE x = ?".toList.head? ≠ some '"' := by decide
  obtain ⟨hmarks, hcount, _, hread, _⟩ := quoteIdentifier_between forgedName hbefore hafter
  refine ⟨hcount.trans (by decide), ?_, hread⟩
  rw [hmarks]
  decide

end DocIndex
