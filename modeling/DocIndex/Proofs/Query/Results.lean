import DocIndex.Proofs.Query.Sets
import DocIndex.Proofs.Query.Sorting
import Mathlib.Data.List.Nodup

/-! # Results of statements

A statement gives one result for each document that is in its set of ids and has a row in one of its tables,
with the revision id of such a row. It fails only where it is not within the limits.
-/

namespace DocIndex

namespace Statement

variable {db : Database} {branches : List Branch} {p : String → Prop} {rows : List SourceRow}

/-- A row of one of the tables has these identifiers. -/
def Reads (db : Database) (branches : List Branch) (docId revId : String) : Prop :=
  ∃ b ∈ branches, ∃ t, db.table? b.table = .ok t ∧ ∃ r ∈ t.rows, r.docId = docId ∧ r.revId = revId

/-- The tables give this value for a sort key of a document. -/
def Cell (db : Database) (branches : List Branch) (position : Nat) (docId : String) (v : SqlValue) : Prop :=
  ∃ b ∈ branches, ∃ t, db.table? b.table = .ok t ∧ ∃ r ∈ t.rows, r.docId = docId ∧
    (b.sortColumns.getD position none).elim .null (t.cell r) = v

def Readable (db : Database) (branches : List Branch) : Prop :=
  ∀ b ∈ branches, ∃ t, db.table? b.table = .ok t ∧ t.rows? = .ok t.rows

def sourceRow (b : Branch) (t : Table) (r : Row) : SourceRow :=
  { docId := r.docId, revId := r.revId, keys := b.sortColumns.map fun c => c.elim .null (t.cell r) }

theorem keyAt_sourceRow (position : Nat) (b : Branch) (t : Table) (r : Row) :
    keyAt position (sourceRow b t r) = (b.sortColumns.getD position none).elim .null (t.cell r) := by
  unfold keyAt sourceRow
  exact List.getD_map b.sortColumns none fun c : Option String => c.elim SqlValue.null (t.cell r)

theorem source?_ok (h : Readable db branches) :
    ∃ source, source? db branches = .ok source ∧ ∀ q, q ∈ source ↔
      ∃ b ∈ branches, ∃ t, db.table? b.table = .ok t ∧ ∃ r ∈ t.rows, sourceRow b t r = q := by
  induction branches with
  | nil => exact ⟨[], rfl, by simp⟩
  | cons b rest ih =>
    obtain ⟨t, ht, hrows⟩ := h b List.mem_cons_self
    obtain ⟨more, hmore, hmem⟩ := ih fun b' hb' => h b' (List.mem_cons_of_mem _ hb')
    have hfirst : rowsOf? db b = .ok (t.rows.map (sourceRow b t)) := by
      simp only [rowsOf?, ht, hrows, bind, Except.bind]
      rfl
    refine ⟨t.rows.map (sourceRow b t) ++ more, by simp only [source?, hfirst, hmore, bind, Except.bind], ?_⟩
    intro q
    rw [List.exists_mem_cons_iff, ← hmem, List.mem_append, List.mem_map]
    refine or_congr_left ?_
    constructor
    · exact fun hq => ⟨t, ht, hq⟩
    · rintro ⟨u, hu, hq⟩
      rw [ht] at hu
      rwa [Except.ok.inj hu]

/-! ## One result for each document -/

theorem mem_distinctIds {id : String} : id ∈ distinctIds rows ↔ ∃ q ∈ rows, q.docId = id := by
  induction rows with
  | nil => simp [distinctIds]
  | cons r rest ih =>
    rw [distinctIds, List.mem_cons, List.mem_filter, ih, List.exists_mem_cons_iff]
    by_cases hid : id = r.docId
    · simp [hid]
    · simp [hid, Ne.symm hid]

theorem distinctIds_nodup (rows : List SourceRow) : (distinctIds rows).Nodup := by
  induction rows with
  | nil => exact List.nodup_nil
  | cons r rest ih =>
    rw [distinctIds, List.nodup_cons]
    exact ⟨by simp, ih.filter _⟩

/-- The result for a document has the revision id of one of its rows, and its keys among the values of all of them. -/
structure IsGroup (directions : List SortDirection) (rows : List SourceRow) (f : Found) : Prop where
  row : ∃ q ∈ rows, q.docId = f.docId ∧ q.revId = f.revId
  keys_length : f.keys.length = directions.length
  keys : ∀ (i : Nat) (d : SortDirection), directions[i]? = some d →
    ∃ v, f.keys[i]? = some v ∧ d.IsKey (fun v => ∃ q ∈ rows, q.docId = f.docId ∧ keyAt i q = v) v

theorem exists_group (directions : List SortDirection) {id : String} (h : id ∈ distinctIds rows) :
    ∃ f, group directions rows id = some f := by
  obtain ⟨q, hq, hid⟩ := mem_distinctIds.mp h
  unfold group
  cases hrows : rows.filter (·.docId == id) with
  | nil =>
    have hmem : q ∈ rows.filter (·.docId == id) := List.mem_filter.mpr ⟨hq, by simp [hid]⟩
    rw [hrows] at hmem
    simp at hmem
  | cons first rest => exact ⟨_, rfl⟩

theorem of_group {directions : List SortDirection} {id : String} {f : Found} (h : group directions rows id = some f) :
    f.docId = id ∧ IsGroup directions rows f := by
  unfold group at h
  have hof : ∀ q, q ∈ rows.filter (·.docId == id) ↔ q ∈ rows ∧ q.docId = id := by
    intro q
    rw [List.mem_filter, beq_iff_eq]
  cases hrows : rows.filter (·.docId == id) with
  | nil => simp [hrows] at h
  | cons first rest =>
    simp only [hrows] at h
    obtain rfl := Option.some.inj h
    have hwitness : witness directions first rest ∈ first :: rest := by
      unfold witness
      split
      · exact extreme_mem _ _ _ _
      · exact List.mem_cons_self
    rw [← hrows, hof] at hwitness
    refine ⟨rfl, ⟨_, hwitness.1, hwitness.2, rfl⟩, by simp [keysOf_eq], ?_⟩
    intro i d hd
    refine ⟨keyAt i (extreme d i first rest), by simp [keysOf_eq, hd], ?_⟩
    refine (extreme_isKey d i first rest).congr fun w _ => ?_
    rw [← hrows]
    simp only [hof, and_assoc]

theorem map_docId_groups (directions : List SortDirection) {ids : List String} (h : ∀ id ∈ ids, id ∈ distinctIds rows) :
    (ids.filterMap (group directions rows)).map (·.docId) = ids := by
  induction ids with
  | nil => rfl
  | cons id rest ih =>
    obtain ⟨f, hf⟩ := exists_group directions (h id List.mem_cons_self)
    rw [List.filterMap_cons_some hf, List.map_cons, (of_group hf).1, ih fun i hi => h i (List.mem_cons_of_mem _ hi)]

/-- One result for each document that some rows are of. -/
structure IsGrouping (directions : List SortDirection) (rows : List SourceRow) (found : List Found) : Prop where
  nodup : (found.map (·.docId)).Nodup
  mem_iff : ∀ id, id ∈ found.map (·.docId) ↔ ∃ q ∈ rows, q.docId = id
  isGroup : ∀ f ∈ found, IsGroup directions rows f

theorem isGrouping_groups (directions : List SortDirection) (rows : List SourceRow) :
    IsGrouping directions rows ((distinctIds rows).filterMap (group directions rows)) := by
  have hdocIds := map_docId_groups directions fun id (hid : id ∈ distinctIds rows) => hid
  refine ⟨?_, ?_, ?_⟩
  · rw [hdocIds]
    exact distinctIds_nodup rows
  · intro id
    rw [hdocIds]
    exact mem_distinctIds
  · intro f hf
    obtain ⟨id, _, hf⟩ := List.mem_filterMap.mp hf
    exact (of_group hf).2

theorem IsGrouping.perm {directions : List SortDirection} {found sorted : List Found}
    (h : IsGrouping directions rows found) (hp : sorted.Perm found) : IsGrouping directions rows sorted where
  nodup := (hp.map (·.docId)).nodup_iff.mpr h.nodup
  mem_iff id := by
    rw [(hp.map (·.docId)).mem_iff]
    exact h.mem_iff id
  isGroup f hf := h.isGroup f (hp.mem_iff.mp hf)

/-! ## Whole statements -/

/-- The documents found: those of the set that have rows, each once and with its keys, in order. -/
structure Finds (db : Database) (s : Statement) (p : String → Prop) (found : List Found) : Prop where
  nodup : (found.map (·.docId)).Nodup
  mem_iff : ∀ id, id ∈ found.map (·.docId) ↔ p id ∧ ∃ revId, Reads db s.branches id revId
  reads : ∀ f ∈ found, Reads db s.branches f.docId f.revId
  keys_length : ∀ f ∈ found, f.keys.length = s.directions.length
  keys : ∀ f ∈ found, ∀ (i : Nat) (d : SortDirection), s.directions[i]? = some d →
    ∃ v, f.keys[i]? = some v ∧ d.IsKey (Cell db s.branches i f.docId) v
  sorted : found.Pairwise fun a b => s.isBefore a b = true

variable {s : Statement} {found : List Found}

/-- The rows are those that the tables have of the documents in a set. -/
def Selects (db : Database) (branches : List Branch) (p : String → Prop) (rows : List SourceRow) : Prop :=
  ∀ q, q ∈ rows ↔
    (∃ b ∈ branches, ∃ t, db.table? b.table = .ok t ∧ ∃ r ∈ t.rows, sourceRow b t r = q) ∧ p q.docId

theorem Selects.exists_row_iff (h : Selects db branches p rows) {id : String} :
    (∃ q ∈ rows, q.docId = id) ↔ p id ∧ ∃ revId, Reads db branches id revId := by
  constructor
  · rintro ⟨q, hq, rfl⟩
    obtain ⟨⟨b, hb, t, ht, r, hr, rfl⟩, hp⟩ := (h q).mp hq
    exact ⟨hp, r.revId, b, hb, t, ht, r, hr, rfl, rfl⟩
  · rintro ⟨hp, _, b, hb, t, ht, r, hr, rfl, _⟩
    exact ⟨sourceRow b t r, (h _).mpr ⟨⟨b, hb, t, ht, r, hr, rfl⟩, hp⟩, rfl⟩

theorem Selects.cell_iff (h : Selects db branches p rows) {id : String} (hp : p id) {position : Nat} {v : SqlValue} :
    (∃ q ∈ rows, q.docId = id ∧ keyAt position q = v) ↔ Cell db branches position id v := by
  constructor
  · rintro ⟨q, hq, hid, rfl⟩
    obtain ⟨⟨b, hb, t, ht, r, hr, rfl⟩, _⟩ := (h q).mp hq
    exact ⟨b, hb, t, ht, r, hr, hid, (keyAt_sourceRow position b t r).symm⟩
  · rintro ⟨b, hb, t, ht, r, hr, rfl, rfl⟩
    exact ⟨sourceRow b t r, (h _).mpr ⟨⟨b, hb, t, ht, r, hr, rfl⟩, hp⟩, rfl, keyAt_sourceRow position b t r⟩

theorem IsGrouping.finds (h : IsGrouping s.directions rows found) (hrows : Selects db s.branches p rows)
    (hsorted : found.Pairwise fun a b => s.isBefore a b = true) : s.Finds db p found := by
  refine ⟨h.nodup, ?_, ?_, fun f hf => (h.isGroup f hf).keys_length, ?_, hsorted⟩
  · intro id
    rw [h.mem_iff, hrows.exists_row_iff]
  · intro f hf
    obtain ⟨q, hq, hid, hrev⟩ := (h.isGroup f hf).row
    obtain ⟨⟨b, hb, t, ht, r, hr, rfl⟩, _⟩ := (hrows q).mp hq
    exact ⟨b, hb, t, ht, r, hr, hid, hrev⟩
  · intro f hf i d hd
    obtain ⟨v, hv, hkey⟩ := (h.isGroup f hf).keys i d hd
    have hp := (hrows.exists_row_iff.mp ((h.mem_iff _).mp (List.mem_map_of_mem hf))).1
    exact ⟨v, hv, hkey.congr fun w _ => hrows.cell_iff hp⟩

theorem results?_ok (hb : Readable db s.branches) (hids : s.ids.Lists db p) :
    ∃ found, s.results? db = .ok found ∧ s.Finds db p found := by
  obtain ⟨source, hsource, hread⟩ := source?_ok hb
  obtain ⟨ids, hfound, hmem⟩ := hids.found
  unfold results?
  simp only [hsource, bind, Except.bind]
  by_cases hnone : source.isEmpty = true
  · have hrows : Selects db s.branches p [] := by
      intro q
      rw [← hread, List.isEmpty_iff.mp hnone]
      simp
    exact ⟨[], by simp only [hnone, if_true], (isGrouping_groups s.directions []).finds hrows .nil⟩
  · simp only [hnone, Bool.false_eq_true, if_false, hfound]
    have hrows : Selects db s.branches p (source.filter fun r => ids.contains r.docId) := by
      intro q
      rw [List.mem_filter, List.contains_iff_mem, hmem, hread]
    have hgroups := isGrouping_groups s.directions (source.filter fun r => ids.contains r.docId)
    refine ⟨_, rfl, (hgroups.perm (List.mergeSort_perm _ _)).finds hrows ?_⟩
    exact pairwise_mergeSort s fun f hf => (hgroups.isGroup f hf).keys_length

theorem run_eq (hb : Readable db s.branches) (hids : s.ids.Lists db p)
    (hfound : s.results? db = .ok found) :
    s.run db = if s.isWithinLimits then .ok ((page s.skip s.limit found).map fun f => (f.docId, f.revId))
      else .error .tooLarge := by
  have htables : s.tables.findSome? (fault? <| db.table? ·) = none := by
    rw [List.findSome?_eq_none_iff]
    intro name hname
    have hok : ∃ t, db.table? name = .ok t := by
      rcases List.mem_append.mp hname with hname | hname
      · obtain ⟨b, hmem, rfl⟩ := List.mem_map.mp hname
        obtain ⟨t, ht, _⟩ := hb b hmem
        exact ⟨t, ht⟩
      · exact hids.tables name hname
    obtain ⟨t, ht⟩ := hok
    rw [ht]
    rfl
  unfold run prepare
  simp only [htables]
  split
  · by_cases hlimit : s.limit = 0
    · simp [hlimit, page, bind, Except.bind]
    · simp only [hfound, hlimit, if_false, bind, Except.bind]
  · rfl

end Statement

end DocIndex
