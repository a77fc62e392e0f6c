import DocIndex.Database
import DocIndex.Proofs.Basic
import DocIndex.Proofs.Index.Catalog

/-! # Checkpoints in any database

A batch finds the checkpoint of an index where the batch starts, and leaves it where the batch leads. This needs
nothing of the database: its rows may be such as no declaration makes, and its tables may be missing.
-/

namespace DocIndex

namespace Catalog

variable {c : Catalog} {rows : List CatalogRow} {name : String} {d : Definition} {ds latest : List Definition}

/-- The definition has its name and its checkpoint from one of these rows. -/
def Backed (rows : List CatalogRow) (d : Definition) : Prop :=
  ∃ row ∈ rows, row.index = d.name ∧ row.lastSequence? = some d.lastSequence

theorem Backed.mono {more : List CatalogRow} (h : Backed rows d) (hsub : rows ⊆ more) : Backed more d := by
  obtain ⟨row, hrow, hd⟩ := h
  exact ⟨row, hsub hrow, hd⟩

theorem backed_of_definition? {row : CatalogRow} {f : IndexField} (h : row.definition? f = .ok d)
    (hrow : row ∈ rows) : Backed rows d := by
  unfold CatalogRow.definition? at h
  split at h
  · rename_i version sequence _ hsequence
    cases hsettings : Settings.read? row.settings with
    | none =>
      rw [hsettings] at h
      cases h
    | some settings =>
      rw [hsettings] at h
      obtain ⟨kind, _, rfl⟩ := ok_of_map h
      exact ⟨row, hrow, rfl, hsequence⟩
  · cases h

theorem backed_of_readRow {row : CatalogRow} (h : readRow latest row = .ok ds) (hrow : row ∈ rows)
    (hlatest : ∀ d ∈ latest, Backed rows d) : ∀ d ∈ ds, Backed rows d := by
  unfold readRow at h
  obtain ⟨f, _, h⟩ := ok_of_bind h
  have hnew : ∀ d, row.definition? f = .ok d → Backed rows d := fun d hd => backed_of_definition? hd hrow
  cases latest with
  | nil =>
    obtain ⟨d, hd, h⟩ := ok_of_bind h
    obtain rfl := Except.ok.inj h
    exact List.forall_mem_singleton.mpr (hnew d hd)
  | cons d rest =>
    rw [List.forall_mem_cons] at hlatest
    dsimp only at h
    split at h
    · obtain rfl := Except.ok.inj h
      exact List.forall_mem_cons.mpr hlatest
    · obtain ⟨e, he, h⟩ := ok_of_bind h
      obtain rfl := Except.ok.inj h
      exact List.forall_mem_cons.mpr ⟨hnew e he, List.forall_mem_cons.mpr hlatest⟩

theorem backed_of_foldlM {read : List CatalogRow} (h : read.foldlM readRow latest = .ok ds) (hread : read ⊆ rows)
    (hlatest : ∀ d ∈ latest, Backed rows d) : ∀ d ∈ ds, Backed rows d := by
  induction read generalizing latest with
  | nil =>
    obtain rfl := Except.ok.inj h
    exact hlatest
  | cons row rest ih =>
    rw [List.foldlM_cons] at h
    obtain ⟨next, hnext, h⟩ := ok_of_bind h
    obtain ⟨hrow, hrest⟩ := List.cons_subset.mp hread
    exact ih h hrest (backed_of_readRow hnext hrow hlatest)

theorem backed_of_definitions (h : c.definitions = .ok ds) : ∀ d ∈ ds, Backed c d := by
  unfold definitions at h
  split at h
  · cases h
  · obtain ⟨latest, hlatest, h⟩ := ok_of_bind h
    obtain rfl := Except.ok.inj h
    intro d hd
    exact backed_of_foldlM hlatest (arranged_perm c).subset nofun d (List.mem_reverse.mp hd)

theorem backed_of_lookup (h : c.definition? name = .ok (some d)) : d.name = name ∧ Backed c d := by
  obtain ⟨ds, hds, h⟩ := ok_of_bind h
  have hfind := Except.ok.inj h
  exact ⟨by simpa using List.find?_some hfind, backed_of_definitions hds d (List.mem_of_find?_eq_some hfind)⟩

/-! ## Setting the checkpoint -/

theorem index_modify {change : CatalogRow → CatalogRow} (hc : ∀ row, (change row).index = row.index) (c : Catalog)
    (name : String) : (c.modify name change).map (·.index) = c.map (·.index) := by
  unfold modify
  rw [List.map_map]
  refine List.map_congr_left fun row _ => ?_
  rw [Function.comp_apply]
  split
  · exact hc row
  · rfl

theorem lastSequence?_of_mem_setLastSequence {sequence : Int} {row : CatalogRow}
    (h : row ∈ c.setLastSequence name sequence) (hrow : row.index = name) : row.lastSequence? = some sequence := by
  obtain ⟨old, _, rfl⟩ := List.mem_map.mp h
  split at hrow
  · rw [if_pos ‹_›]
  · exact absurd hrow ‹_›

theorem lastSequence?_setLastSequence (h : name ∈ c.map (·.index)) (sequence : Int) :
    (c.setLastSequence name sequence).lastSequence? name = .ok (some sequence) := by
  have hname : name ∈ (c.setLastSequence name sequence).map (·.index) := by
    rw [setLastSequence, index_modify]
    · exact h
    · exact fun _ => rfl
  obtain ⟨row, hrow, hindex⟩ := List.mem_map.mp hname
  obtain ⟨first, hfirst, hsame, hfind⟩ := exists_find?_key CatalogRow.index hrow
  rw [hindex] at hsame hfind
  simp only [lastSequence?, hfind, lastSequence?_of_mem_setLastSequence hfirst hsame]

theorem lastSequence_of_setLastSequence {sequence : Int}
    (h : (c.setLastSequence name sequence).definition? name = .ok (some d)) : d.lastSequence = sequence := by
  obtain ⟨hname, row, hrow, hindex, hlast⟩ := backed_of_lookup h
  rw [lastSequence?_of_mem_setLastSequence hrow (hindex.trans hname)] at hlast
  exact (Option.some.inj hlast).symm

end Catalog

namespace Database

variable {db next : Database} {d : Definition} {index : String} {since checkpoint : Int} {changes : List Revision}

/-! ## Applying changes -/

theorem index_recordTypes (c : Catalog) (index : String) (types : List (String × FieldType)) :
    (recordTypes c index types).map (·.index) = c.map (·.index) := by
  unfold recordTypes
  induction types generalizing c with
  | nil => rfl
  | cons t rest ih =>
    rw [List.foldl_cons, ih, Catalog.setFieldType, Catalog.index_modify]
    intro row
    split <;> rfl

theorem catalog_modifyTable {name : String} {change : Table → Except SqlFault Table}
    (h : db.modifyTable name change = .ok next) : next.catalog = db.catalog := by
  obtain ⟨t, _, h⟩ := ok_of_bind h
  obtain ⟨changed, _, h⟩ := ok_of_bind h
  rw [← Except.ok.inj h]

theorem index_applyChange {r : Revision} {e : Definition} (h : db.applyChange d r = .ok (next, e)) :
    next.catalog.map (·.index) = db.catalog.map (·.index) := by
  obtain ⟨cleared, hcleared, h⟩ := ok_of_bind h
  split at h
  · obtain ⟨rfl, rfl⟩ := Prod.mk.inj (Except.ok.inj h)
    rw [catalog_modifyTable hcleared]
  · obtain ⟨filled, hfilled, h⟩ := ok_of_bind h
    obtain ⟨rfl, rfl⟩ := Prod.mk.inj (Except.ok.inj h)
    exact (index_recordTypes _ _ _).trans (by rw [catalog_modifyTable hfilled, catalog_modifyTable hcleared])

theorem index_applyChanges (h : applyChanges d changes db = .ok next) :
    next.catalog.map (·.index) = db.catalog.map (·.index) := by
  induction changes generalizing d db with
  | nil => rw [← Except.ok.inj h]
  | cons r rest ih =>
    obtain ⟨⟨changed, e⟩, hchange, h⟩ := ok_of_bind h
    exact (ih h).trans (index_applyChange hchange)

/-! ## The checkpoint of an index -/

def checkpoint? (db : Database) (index : String) : Option Int :=
  (db.definition? index).toOption.join.map (·.lastSequence)

theorem checkpoint?_eq_some : db.checkpoint? index = some checkpoint ↔
    ∃ d, db.definition? index = .ok (some d) ∧ d.lastSequence = checkpoint := by
  unfold checkpoint?
  cases db.definition? index with
  | error e => simp [Except.toOption]
  | ok d? => cases d? <;> simp [Except.toOption]

/-- How a batch ends: what it finds in the database, and what it leaves there. -/
theorem applyBatch_cases {outcome : BatchOutcome}
    (h : db.applyBatch index since changes checkpoint = .ok outcome) :
    (outcome = .vanished ∧ db.checkpoint? index = none) ∨
    (∃ found, outcome = .moved found ∧ db.checkpoint? index = some found ∧ found ≠ since) ∨
    ∃ next, outcome = .applied next ∧ db.checkpoint? index = some since ∧
      next.catalog.lastSequence? index = .ok (some checkpoint) ∧
      ∀ found, next.checkpoint? index = some found → found = checkpoint := by
  obtain ⟨d?, hd, h⟩ := ok_of_bind h
  cases d? with
  | none =>
    refine Or.inl ⟨(Except.ok.inj h).symm, ?_⟩
    simp [checkpoint?, hd, Except.toOption]
  | some d =>
    right
    have hfound : db.checkpoint? index = some d.lastSequence := checkpoint?_eq_some.mpr ⟨d, hd, rfl⟩
    dsimp only at h
    split at h
    · exact Or.inl ⟨d.lastSequence, (Except.ok.inj h).symm, hfound, ‹_›⟩
    · rename_i hsince
      obtain ⟨applied, happlied, h⟩ := ok_of_bind h
      obtain ⟨hname, row, hrow, hindex, _⟩ := Catalog.backed_of_lookup hd
      have hdefined : index ∈ applied.catalog.map (·.index) := by
        have hkept : applied.catalog.map (·.index) = db.catalog.map (·.index) := by
          cases hresult : applyChanges d changes db with
          | error e =>
            rw [hresult] at happlied
            cases happlied
          | ok changed =>
            rw [hresult] at happlied
            obtain rfl := Except.ok.inj happlied
            exact index_applyChanges hresult
        rw [hkept]
        exact List.mem_map.mpr ⟨row, hrow, hindex.trans hname⟩
      refine Or.inr ⟨_, (Except.ok.inj h).symm, ?_, Catalog.lastSequence?_setLastSequence hdefined _, ?_⟩
      · rw [hfound, not_not.mp hsince]
      · intro found hnext
        obtain ⟨e, he, rfl⟩ := checkpoint?_eq_some.mp hnext
        exact Catalog.lastSequence_of_setLastSequence he

end Database

end DocIndex
