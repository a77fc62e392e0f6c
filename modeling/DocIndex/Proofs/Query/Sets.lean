import DocIndex.Query.Answer
import Mathlib.Data.List.Forall2

/-! # Sets of documents

A set of documents that can be read lists the documents with some property. What the set operators make of
such sets can be read too, and has the property that they say.
-/

namespace DocIndex

namespace IdSet

/-- The set can be read, and lists the documents with this property. -/
structure Lists (db : Database) (s : IdSet) (p : String → Prop) : Prop where
  tables : ∀ name ∈ s.tables, ∃ t, db.table? name = .ok t
  found : ∃ found, s.ids db = .ok found ∧ ∀ id, id ∈ found ↔ p id

variable {db : Database} {s left right : IdSet} {p q : String → Prop} {sets : List IdSet}
variable {ps : List (String → Prop)}

theorem Lists.congr (h : s.Lists db p) (hpq : ∀ id, p id ↔ q id) : s.Lists db q := by
  obtain ⟨found, hfound, hmem⟩ := h.found
  exact ⟨h.tables, found, hfound, fun id => (hmem id).trans (hpq id)⟩

theorem lists_rows {table : String} {t : Table} {rows : List Row} (ht : db.table? table = .ok t)
    (hrows : t.rows? = .ok rows) (conditions : List Predicate) :
    (IdSet.rows table conditions).Lists db fun id =>
      ∃ r ∈ rows, r.docId = id ∧ ∀ c ∈ conditions, c.holds t r = true := by
  refine ⟨?_, (rows.filter fun r => conditions.all (·.holds t r)).map (·.docId), ?_, ?_⟩
  · intro name hname
    rw [IdSet.tables, List.mem_singleton] at hname
    exact ⟨t, by rw [hname]; exact ht⟩
  · simp only [ids, ht, hrows, bind, Except.bind]
  · intro id
    simp only [List.mem_map, List.mem_filter, List.all_eq_true]
    constructor
    · rintro ⟨r, ⟨hr, hall⟩, hid⟩
      exact ⟨r, hr, hid, hall⟩
    · rintro ⟨r, hr, hid, hall⟩
      exact ⟨r, ⟨hr, hall⟩, hid⟩

theorem lists_matching {table search : String} {t : Table} {rows : List Row} (ht : db.table? table = .ok t)
    (hrows : t.matching? search = .ok rows) :
    (IdSet.matching table search).Lists db fun id => ∃ r ∈ rows, r.docId = id := by
  refine ⟨?_, rows.map (·.docId), by simp only [ids, ht, hrows, bind, Except.bind], fun id => List.mem_map⟩
  intro name hname
  rw [IdSet.tables, List.mem_singleton] at hname
  exact ⟨t, by rw [hname]; exact ht⟩

theorem Lists.without (hl : left.Lists db p) (hr : right.Lists db q) :
    (IdSet.without left right).Lists db fun id => p id ∧ ¬ q id := by
  obtain ⟨found, hfound, hmem⟩ := hl.found
  obtain ⟨others, hothers, hmem'⟩ := hr.found
  refine ⟨fun name hname => (List.mem_append.mp hname).elim (hl.tables name) (hr.tables name), ?_⟩
  by_cases hnone : found.isEmpty = true
  · refine ⟨[], by simp only [ids, hfound, hnone, if_true, bind, Except.bind], ?_⟩
    intro id
    have hnot : ¬ p id := by
      rw [← hmem id, List.isEmpty_iff.mp hnone]
      exact List.not_mem_nil
    simp [hnot]
  · refine ⟨found.filter (!others.contains ·), ?_, ?_⟩
    · simp only [ids, hfound, hothers, hnone, bind, Except.bind]
      rfl
    · intro id
      rw [List.mem_filter, hmem id, Bool.not_eq_true', ← Bool.not_eq_true, List.contains_iff_mem, hmem' id]

theorem lists_tablesOf (h : List.Forall₂ (fun s p => Lists db s p) sets ps) :
    ∀ name ∈ tablesOf sets, ∃ t, db.table? name = .ok t := by
  induction h with
  | nil => simp [tablesOf]
  | cons hs _ ih => exact fun name hname => (List.mem_append.mp hname).elim (hs.tables name) (ih name)

theorem lists_common {found : List String} (h : List.Forall₂ (fun s p => Lists db s p) sets ps) :
    ∃ rest, common db found sets = .ok rest ∧ ∀ id, id ∈ rest ↔ id ∈ found ∧ ∀ p ∈ ps, p id := by
  induction h generalizing found with
  | nil => exact ⟨found, by simp only [common], by simp⟩
  | @cons s p sets ps hs _ ih =>
    by_cases hnone : found.isEmpty = true
    · refine ⟨[], by simp only [common, hnone, if_true], ?_⟩
      intro id
      rw [List.isEmpty_iff.mp hnone]
      simp
    · obtain ⟨others, hothers, hmem⟩ := hs.found
      obtain ⟨rest, hrest, hmem'⟩ := @ih (found.filter others.contains)
      refine ⟨rest, ?_, ?_⟩
      · simp only [common, hnone, hothers, bind, Except.bind]
        exact hrest
      · intro id
        rw [hmem' id, List.mem_filter, List.contains_iff_mem, hmem id, List.forall_mem_cons, and_assoc]

theorem lists_intersect (hne : sets ≠ []) (h : List.Forall₂ (fun s p => Lists db s p) sets ps) :
    (IdSet.intersect sets).Lists db fun id => ∀ p ∈ ps, p id := by
  refine ⟨lists_tablesOf h, ?_⟩
  cases h with
  | nil => exact absurd rfl hne
  | @cons s p sets ps hs hrest =>
    obtain ⟨found, hfound, hmem⟩ := hs.found
    obtain ⟨rest, hcommon, hmem'⟩ := @lists_common db sets ps found hrest
    refine ⟨rest, ?_, ?_⟩
    · simp only [ids, hfound, bind, Except.bind]
      exact hcommon
    · intro id
      show id ∈ rest ↔ ∀ q ∈ p :: ps, q id
      rw [hmem' id, hmem id, List.forall_mem_cons]

theorem lists_union (h : List.Forall₂ (fun s p => Lists db s p) sets ps) :
    (IdSet.union sets).Lists db fun id => ∃ p ∈ ps, p id := by
  have htogether : ∃ found, together db sets = .ok found ∧ ∀ id, id ∈ found ↔ ∃ p ∈ ps, p id := by
    induction h with
    | nil => exact ⟨[], by simp only [together], by simp⟩
    | @cons s p sets ps hs _ ih =>
      obtain ⟨first, hfirst, hmem⟩ := hs.found
      obtain ⟨more, hmore, hmem'⟩ := ih
      refine ⟨first ++ more, by simp only [together, hfirst, hmore, bind, Except.bind], ?_⟩
      intro id
      rw [List.mem_append, hmem id, hmem' id, List.exists_mem_cons_iff]
  obtain ⟨found, hfound, hmem⟩ := htogether
  exact ⟨lists_tablesOf h, found, by simp only [ids, hfound], hmem⟩

end IdSet

end DocIndex
