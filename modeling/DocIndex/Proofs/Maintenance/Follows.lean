import DocIndex.Proofs.Maintenance.Page

/-! # Indexes that follow a store

An index starts at some sequence and follows the store from there: the latest revisions between its start
and its checkpoint are represented by its rows, and whatever else it holds are the rows of one revision
each. Writes and purges leave this as it is, and so does a page that covers what comes next.
-/

namespace DocIndex

namespace Content

/-- The rows of an index are right from `start` to its checkpoint; `written` are the revisions that were
ever written. -/
structure Follows (x : Content) (s : Store) (written : List Revision) (start : Int) : Prop where
  start_le : start ≤ x.definition.lastSequence
  checkpoint_le : x.definition.lastSequence ≤ s.sequence
  current : ∀ id r, s.winning? id = some r → start < r.sequence → r.sequence ≤ x.definition.lastSequence →
    x.Represents r
  single : ∀ id, x.rowsOf id = [] ∨ ∃ r ∈ written, r.docId = id ∧ r.deleted = false ∧
    r.sequence ≤ x.definition.lastSequence ∧ x.Represents r

/-- Absorb the changes of a page and move the checkpoint to its end. -/
def apply (x : Content) (p : Page) : Content :=
  { definition := { (x.absorbAll p.changes).definition with lastSequence := p.checkpoint }
    rows := (x.absorbAll p.changes).rows }

variable {x y : Content} {s t : Store} {written later : List Revision} {start : Int} {p : Page} {r : Revision}

theorem Represents.congr (h : x.Represents r) (hk : y.definition.kind = x.definition.kind)
    (hf : y.definition.fields = x.definition.fields) (hrows : y.rows = x.rows) : y.Represents r := by
  refine h.of_refines hk ?_ ?_
  · rw [hf]
    exact Index.Refines.refl _
  · simp only [rowsOf, hrows]

theorem apply_represents_iff (x : Content) (p : Page) (r : Revision) :
    (x.apply p).Represents r ↔ (x.absorbAll p.changes).Represents r :=
  ⟨fun h => h.congr rfl rfl rfl, fun h => h.congr rfl rfl rfl⟩

theorem rowsOf_apply (x : Content) (p : Page) (id : String) :
    (x.apply p).rowsOf id = (x.absorbAll p.changes).rowsOf id := rfl

theorem apply_name (x : Content) (p : Page) : (x.apply p).name = x.name := absorbAll_name x p.changes

namespace Follows

theorem of_precedes (h : x.Follows s written start) (hst : s.Precedes t) (hw : written ⊆ later) :
    x.Follows t later start := by
  refine ⟨h.start_le, Int.le_trans h.checkpoint_le hst.sequence_le, ?_, ?_⟩
  · intro id r hr hlt hle
    have hs := hst.winning_of_le id r hr (Int.le_trans hle h.checkpoint_le)
    exact h.current id r hs hlt hle
  · intro id
    refine (h.single id).imp_right ?_
    rintro ⟨r, hr, hrest⟩
    exact ⟨r, hw hr, hrest⟩

theorem congr (h : x.Follows s written start) (hk : y.definition.kind = x.definition.kind)
    (hf : y.definition.fields = x.definition.fields) (hl : y.definition.lastSequence = x.definition.lastSequence)
    (hrows : y.rows = x.rows) : y.Follows s written start := by
  refine ⟨by rw [hl]; exact h.start_le, by rw [hl]; exact h.checkpoint_le, ?_, ?_⟩
  · intro id r hr hlt hle
    rw [hl] at hle
    exact (h.current id r hr hlt hle).congr hk hf hrows
  · intro id
    have hid : y.rowsOf id = x.rowsOf id := by simp only [rowsOf, hrows]
    rw [hid, hl]
    refine (h.single id).imp_right ?_
    rintro ⟨r, hr, hdoc, hlive, hle, hrep⟩
    exact ⟨r, hr, hdoc, hlive, hle, hrep.congr hk hf hrows⟩

theorem of_rows_nil (hrows : x.rows = []) (hstart : x.definition.lastSequence = start)
    (hle : start ≤ s.sequence) : x.Follows s written start := by
  refine ⟨Int.le_of_eq hstart.symm, by rw [hstart]; exact hle, ?_, ?_⟩
  · intro id r _ hlt hbound
    omega
  · intro id
    left
    simp [rowsOf, hrows]

theorem not_mem_changes (hp : p.Covers s start) {id : String}
    (hr : s.winning? id = some r) (hle : r.sequence ≤ start) : id ∉ p.changes.map (·.docId) := by
  intro hmem
  obtain ⟨q, hq, rfl⟩ := List.mem_map.mp hmem
  have hafter := (hp.between q hq).1
  have hlatest := hp.latest q hq r hr
  omega

/-- An index goes on following a store by a page that covers what comes after its checkpoint. -/
theorem apply (h : x.Follows s written start) (hs : s.WellFormed)
    (hp : p.Covers s x.definition.lastSequence) (hw : ∀ r ∈ p.changes, r ∈ written) :
    (x.apply p).Follows s written start := by
  have hcheck : (x.apply p).definition.lastSequence = p.checkpoint := rfl
  have hlt := hp.since_lt
  have hstart := h.start_le
  refine ⟨by omega, by rw [hcheck]; exact hp.checkpoint_le, ?_, ?_⟩
  · intro id r hr hafter hle
    rw [hcheck] at hle
    rw [apply_represents_iff]
    by_cases hold : r.sequence ≤ x.definition.lastSequence
    · have hid := not_mem_changes hp hr hold
      rw [← hs.winning_docId hr] at hid
      exact (h.current id r hr hafter hold).absorbAll_of_not_mem hid
    · have hmem := hp.complete id r hr (by omega) hle
      exact represents_absorbAll hp.nodup hmem x
  · intro id
    rw [hcheck, rowsOf_apply]
    by_cases hid : id ∈ p.changes.map (·.docId)
    · obtain ⟨r, hr, rfl⟩ := List.mem_map.mp hid
      have hrep := represents_absorbAll hp.nodup hr x
      cases hd : r.deleted with
      | true =>
        left
        rw [hrep.rows_eq]
        simp [Definition.rowsFor, hd]
      | false =>
        right
        exact ⟨r, hw r hr, rfl, hd, (hp.between r hr).2, (apply_represents_iff x p r).mpr hrep⟩
    · rw [rowsOf_absorbAll_of_not_mem x hid]
      refine (h.single id).imp_right ?_
      rintro ⟨r, hr, rfl, hlive, hle, hrep⟩
      exact ⟨r, hr, rfl, hlive, by omega, (apply_represents_iff x p r).mpr (hrep.absorbAll_of_not_mem hid)⟩

end Follows

end Content

end DocIndex
