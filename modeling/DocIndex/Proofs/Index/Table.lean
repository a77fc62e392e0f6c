import DocIndex.Index.Table
import DocIndex.Proofs.Basic
import DocIndex.Proofs.FullText.Declared
import DocIndex.Proofs.Index.Content
import Mathlib.Data.List.Pairwise

/-! # Tables that keep an index

A table keeps an index if it has the rows of the index and nothing of it is lost. Then rows are read,
erased and added without fail. Two tables are apart if they take no name in common, whatever its case;
tables that are apart can be told by their names.
-/

namespace DocIndex

/-- The form of a table is one for indexes of this kind. -/
def TableForm.Fits : TableForm → IndexKind → Prop
  | .ordinary, .value => True
  | .fullText f, .text => f.KeepsTexts
  | _, _ => False

def IndexKind.parts : IndexKind → List FullText.Part
  | .value => []
  | .text => [.data, .idx, .content, .docsize, .config]

def Definition.takenNames (d : Definition) : List String :=
  d.tableName :: d.kind.parts.map (d.tableName ++ ·.suffix) ++ d.lookups

namespace Table

/-- The table has the rows of an index, and all parts that it needs. -/
structure Keeps (t : Table) (x : Content) : Prop where
  name_eq : t.name = x.definition.tableName
  columns_eq : t.columns = x.definition.fieldColumns.map (·.2)
  lookups_eq : t.lookups = x.definition.lookups
  rows_eq : t.rows = x.rows
  lost_eq : t.lost = []
  opened : t.opened = true
  fits : t.form.Fits x.definition.kind
  parts_eq : t.form.parts = x.definition.kind.parts

def Apart (a b : Table) : Prop := ∀ n ∈ a.allNames, ∀ m ∈ b.allNames, sameName n m = false

variable {t a b : Table} {x : Content} {ts : List Table}

namespace Keeps

theorem checkOpen (h : t.Keeps x) : t.checkOpen = .ok () := by
  rw [Table.checkOpen, if_pos h.opened]

theorem store_eq (h : t.Keeps x) : t.form.store = .own := by
  have hfits := h.fits
  cases hf : t.form with
  | ordinary => rfl
  | fullText f =>
    rw [hf] at hfits
    cases hk : x.definition.kind with
    | value => rw [hk] at hfits; exact hfits.elim
    | text => rw [hk] at hfits; exact hfits.1

theorem checkReadable (h : t.Keeps x) : t.checkReadable = .ok () := by
  have hfits := h.fits
  unfold Table.checkReadable
  cases hf : t.form with
  | ordinary => rfl
  | fullText f =>
    rw [hf] at hfits
    cases hk : x.definition.kind with
    | value => rw [hk] at hfits; exact hfits.elim
    | text =>
      rw [hk] at hfits
      have hread : f.readPart? = some .content := by
        unfold FullTextForm.readPart?
        rw [hfits.1, hfits.2, if_pos (by decide)]
      simp [hread, h.lost_eq]

theorem rows? (h : t.Keeps x) : t.rows? = .ok x.rows := by
  have hknown : t.known = x.rows := by
    unfold Table.known
    rw [h.store_eq]
    exact h.rows_eq
  unfold Table.rows?
  rw [h.checkReadable, hknown]
  rfl

theorem contents? (h : t.Keeps x) : t.contents? = .ok (x.rows.map Table.cells) := by
  unfold Table.contents?
  rw [h.checkReadable, h.store_eq, h.rows_eq]
  rfl

theorem checkErasable (h : t.Keeps x) : t.checkErasable = .ok () := by
  unfold Table.checkErasable
  rw [h.store_eq]

theorem checkWritable (h : t.Keeps x) (rows : List Row) : t.checkWritable rows = .ok () := by
  unfold Table.checkWritable
  simp [h.lost_eq]

theorem erase? (h : t.Keeps x) (id : String) :
    t.erase? id = .ok { t with rows := t.rows.filter (·.docId != id) } := by
  unfold Table.erase?
  rw [h.rows?, ← h.rows_eq]
  simp only [bind, Except.bind, h.checkErasable, h.checkWritable]
  split
  · rename_i hnone
    have hall : t.rows.filter (·.docId != id) = t.rows := by
      rw [List.filter_eq_self]
      intro row hrow
      have hne := List.filter_eq_nil_iff.mp (List.isEmpty_iff.mp hnone) row hrow
      simpa using hne
    rw [hall]
  · rfl

theorem append? (h : t.Keeps x) (rows : List Row) :
    t.append? rows = .ok { t with rows := t.rows ++ rows, worded := t.worded || t.haveWords rows } := by
  unfold Table.append?
  rw [h.checkWritable]
  rfl

theorem names_eq (h : t.Keeps x) : t.names = t.allNames := by
  have hparts : t.parts = t.form.parts := by
    unfold Table.parts
    simp [h.lost_eq]
  rw [Table.names, Table.allNames, hparts]

theorem takenNames_eq (h : t.Keeps x) : t.takenNames = x.definition.takenNames := by
  rw [Table.takenNames, h.names_eq, Table.allNames, h.parts_eq, h.lookups_eq, Definition.takenNames, ← h.name_eq]
  rfl

theorem reconnected_eq (h : t.Keeps x) : t.reconnected = t := by
  unfold Table.reconnected
  have hopened : (!t.lost.contains .data && !t.lost.contains .config) = t.opened := by
    rw [h.lost_eq, h.opened]
    rfl
  rw [hopened]

end Keeps

/-! ## Tables apart -/

theorem Apart.symm (h : a.Apart b) : b.Apart a := by
  intro n hn m hm
  rw [sameName_comm]
  exact h m hm n hn

instance : Std.Symm Apart := ⟨fun _ _ h => h.symm⟩

theorem eq_or_apart (hp : ts.Pairwise Apart) (ha : a ∈ ts) (hb : b ∈ ts) : a = b ∨ a.Apart b := by
  by_cases h : a = b
  · exact Or.inl h
  · exact Or.inr (hp.forall ha hb h)

theorem eq_of_sameName (hp : ts.Pairwise Apart) (ha : a ∈ ts) (hb : b ∈ ts) {n m : String} (hn : n ∈ a.allNames)
    (hm : m ∈ b.allNames) (h : sameName n m = true) : a = b := by
  refine (eq_or_apart hp ha hb).resolve_right fun hab => ?_
  rw [hab n hn m hm] at h
  exact absurd h (by decide)

theorem eq_of_name (hp : ts.Pairwise Apart) (ha : a ∈ ts) (hb : b ∈ ts) (h : a.name = b.name) : a = b :=
  eq_of_sameName hp ha hb List.mem_cons_self List.mem_cons_self (by rw [h]; exact sameName_refl _)

theorem survives_iff (hp : ts.Pairwise Apart) (ha : a ∈ ts) (ht : t ∈ ts) :
    (!t.allNames.any (sameName a.name)) = true ↔ a.name ≠ t.name := by
  rw [Bool.not_eq_true', List.any_eq_false]
  constructor
  · rintro hfree heq
    refine hfree t.name List.mem_cons_self ?_
    rw [heq]
    exact sameName_refl _
  · intro hne n hn hsame
    exact hne (congrArg name (eq_of_sameName hp ha ht List.mem_cons_self hn hsame))

theorem find?_name (hp : ts.Pairwise Apart) (ht : t ∈ ts) : ts.find? (·.name == t.name) = some t :=
  find?_key ht fun _ hu hname => eq_of_name hp hu ht hname

end Table

end DocIndex
