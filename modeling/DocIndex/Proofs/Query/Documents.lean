import DocIndex.Proofs.Document.RevisionIds
import DocIndex.Proofs.Maintenance.Consistency
import DocIndex.Proofs.Query.Admission
import DocIndex.Proofs.Query.Replan
import DocIndex.Proofs.Query.Run

/-! # Documents that plans find

Where all indexes are up to date, a plan yields the live documents that its selector asks for. It may yield
others that were purged, whose rows are left, but these are passed over when the results are read.
-/

namespace DocIndex

namespace ResultSet

variable (revision? : (docId revId : String) → Option Revision)

theorem resolve_eq (row : String × String) :
    resolve none (fun docId revId => .ok (revision? docId revId)) row =
      .ok ((revision? row.1 row.2).filter (!·.deleted)) := by
  simp only [resolve]
  cases hr : revision? row.1 row.2 with
  | none => simp only [Option.filter_none]
  | some r => cases hd : r.deleted <;> simp [Option.filter, hd, shape]

theorem documents_eq (rows : List (String × String)) :
    documents { rows } (fun docId revId => .ok (revision? docId revId)) =
      .ok (rows.filterMap fun row => (revision? row.1 row.2).filter (!·.deleted)) := by
  unfold documents items
  induction rows with
  | nil => rfl
  | cons row rest ih =>
    unfold itemsOf
    rw [resolve_eq]
    cases hr : (revision? row.1 row.2).filter (!·.deleted) with
    | none =>
      rw [List.filterMap_cons, hr]
      exact ih
    | some r =>
      rw [List.filterMap_cons, hr]
      simp only [List.mapM_cons, ih, bind, Except.bind, pure, Except.pure]

end ResultSet

namespace World

/-- Indexes that start with the store have come to its present. -/
def CaughtUp (w : World) (xs : List Content) : Prop :=
  ∀ x ∈ xs, w.starts x.name = 0 ∧ x.definition.lastSequence = w.store.sequence

namespace Sound

variable {w : World} {xs : List Content} {x : Content} {t : Table} {row : Row} {r : Revision} {id : String}
variable {selector : Selector} {sort : List SortKey} {p : Plan} {n : PlanNode} {found : List Found}

theorem represents (h : w.Sound xs) (hx : x ∈ xs)
    (hc : w.starts x.name = 0 ∧ x.definition.lastSequence = w.store.sequence) (hr : w.store.winning? id = some r) :
    x.Represents r := by
  obtain ⟨hstart, hcheckpoint⟩ := hc
  obtain ⟨hpos, hle⟩ := h.store.winning_bounded hr
  exact (h.follows x hx).current id r hr (by omega) (by omega)

theorem row_of_winning (h : w.Sound xs) (hc : w.CaughtUp xs) (hx : x ∈ xs) (ht : t.Keeps x)
    (hr : w.store.winning? row.docId = some r) (hrow : row ∈ t.rows) : r.deleted = false ∧ row.revId = r.revId := by
  have hrows := (h.represents hx (hc x hx) hr).rows_eq
  have hmem : row ∈ x.rowsOf r.docId := by
    rw [h.store.winning_docId hr, Content.rowsOf, ← ht.rows_eq]
    exact List.mem_filter.mpr ⟨hrow, beq_self_eq_true _⟩
  rw [hrows, Definition.rowsFor] at hmem
  cases hd : r.deleted with
  | true => simp [hd] at hmem
  | false =>
    rw [hd] at hmem
    exact ⟨rfl, (Definition.ids_of_mem_documentRows hmem).2⟩

theorem showsLive (h : w.Sound xs) (hx : x ∈ xs)
    (hc : w.starts x.name = 0 ∧ x.definition.lastSequence = w.store.sequence) (hk : x.definition.kind = .value)
    (ht : t.Keeps x) (hr : w.store.winning? id = some r) (hlive : r.deleted = false) :
    t.ShowsLive x.definition r :=
  (h.represents hx hc hr).showsLive (h.holds.valid x hx) hk ht hlive

/-! ## Groups -/

variable {d : Definition} {group : List (String × Condition)}

theorem exists_table (h : w.Sound xs)
    (ha : Planner.Answers (Catalog.sorted (xs.map (·.definition))) sort d group) :
    ∃ t, w.database.table? d.tableName = .ok t ∧ ∃ x ∈ xs, x.definition = d ∧ t.Keeps x := by
  obtain ⟨x, hx, rfl⟩ := List.mem_map.mp ((Catalog.sorted_perm _).mem_iff.mp (Planner.chooseIndex_ok ha.1).1)
  obtain ⟨t, _, ht, htable⟩ := h.holds.table? hx
  exact ⟨t, htable, x, hx, rfl, ht⟩

theorem keeps_of_table? (h : w.Sound xs)
    (ha : Planner.Answers (Catalog.sorted (xs.map (·.definition))) sort d group)
    (ht : w.database.table? d.tableName = .ok t) : ∃ x ∈ xs, x.definition = d ∧ t.Keeps x := by
  obtain ⟨u, hu, hkeeps⟩ := h.exists_table ha
  rw [ht] at hu
  rwa [Except.ok.inj hu]

theorem answers_of_index (hc : p.Compiles)
    (hn : p.root.Runs (Planner.Answers (Catalog.sorted (xs.map (·.definition))) sort)) (hd : d ∈ p.indexes) :
    ∃ group, Planner.Answers (Catalog.sorted (xs.map (·.definition))) sort d group := by
  have hmem := Plan.mem_of_mem_indexes hc hd
  rw [PlanNode.texts, hn.searches, List.map_nil, List.append_nil] at hmem
  exact hn.scans d hmem

theorem readable (h : w.Sound xs) (hc : p.Compiles)
    (hn : p.root.Runs (Planner.Answers (Catalog.sorted (xs.map (·.definition))) sort)) : p.Readable w.database := by
  refine ⟨hc, fun d hd => ?_, ?_⟩
  · obtain ⟨g, ha⟩ := answers_of_index hc hn hd
    obtain ⟨t, htable, x, _, _, ht⟩ := h.exists_table ha
    exact ⟨t, htable, by rw [ht.rows?, ht.rows_eq]⟩
  · intro s hs
    rw [Plan.searches, hn.searches] at hs
    exact absurd hs List.not_mem_nil

theorem finds_iff {text : Definition → String → Prop} (h : w.Sound xs) (hc : w.CaughtUp xs)
    (hn : n.Runs (Planner.Answers (Catalog.sorted (xs.map (·.definition))) sort))
    (hr : w.store.winning? r.docId = some r) (hlive : r.deleted = false) :
    n.Finds (w.database.Scans r.docId) text ↔ n.Finds (fun d group => d.Admits group r) text := by
  refine hn.finds_congr fun d group ha => ?_
  obtain ⟨_, hk, hcovers⟩ := Planner.chooseIndex_ok ha.1
  have hiff : ∀ t, w.database.table? d.tableName = .ok t → (t.Finds d group r.docId ↔ d.Admits group r) := by
    intro t ht
    obtain ⟨x, hx, rfl, hkeeps⟩ := h.keeps_of_table? ha ht
    exact (h.showsLive hx (hc x hx) hk hkeeps hr hlive).finds_iff hcovers ha.2
  constructor
  · rintro ⟨t, ht, hfinds⟩
    exact (hiff t ht).mp hfinds
  · intro hadmits
    obtain ⟨t, ht, _⟩ := h.exists_table ha
    exact ⟨t, ht, (hiff t ht).mpr hadmits⟩

theorem live_of_finds {text : Definition → String → Prop} (h : w.Sound xs) (hc : w.CaughtUp xs)
    (hn : n.Runs (Planner.Answers (Catalog.sorted (xs.map (·.definition))) sort))
    (hr : w.store.winning? id = some r) (hfinds : n.Finds (w.database.Scans id) text) :
    r.deleted = false := by
  have huses : n.Uses (Planner.Answers (Catalog.sorted (xs.map (·.definition))) sort) fun _ _ => True := hn.uses
  have hscans : ∃ d ∈ n.scans, ∃ g, w.database.Scans id d g := by
    rcases huses.shows hfinds with hscans | ⟨s, hs, _⟩
    · exact hscans
    · rw [hn.searches] at hs
      exact absurd hs List.not_mem_nil
  obtain ⟨d, hd, group, u, hu, hscan⟩ := hscans
  obtain ⟨g, ha⟩ := hn.scans d hd
  obtain ⟨x, hx, _, ht⟩ := h.keeps_of_table? ha hu
  obtain ⟨row, hrow, rfl, _⟩ := hscan.row
  exact (h.row_of_winning hc hx ht hr hrow).1

/-! ## Results -/

theorem revision?_eq (h : w.Sound xs) (hc : w.CaughtUp xs) (hcompiles : p.Compiles)
    (hn : p.root.Runs (Planner.Answers (Catalog.sorted (xs.map (·.definition))) sort))
    (hy : p.Lists w.database found) {f : Found} (hf : f ∈ found) :
    (w.store.revision? f.docId f.revId).filter (!·.deleted) = w.store.winning? f.docId := by
  cases hr : w.store.winning? f.docId with
  | none =>
    rw [Store.revision?_of_winning_none hr]
    rfl
  | some r =>
    obtain ⟨d, hd, u, hu, row, hrow, hid, hrev⟩ := hy.reads f hf
    obtain ⟨g, ha⟩ := answers_of_index hcompiles hn hd
    obtain ⟨x, hx, _, ht⟩ := h.keeps_of_table? ha hu
    rw [← hid] at hr
    obtain ⟨hlive, hsame⟩ := h.row_of_winning hc hx ht hr hrow
    rw [← hid, ← hrev, hsame, h.store.revision?_winning hr]
    simp [hlive]

/-- The results of a plan, when they are read, are the latest revisions of the live documents that satisfy the
selector. -/
theorem documents_of_lists (h : w.Sound xs) (hc : w.CaughtUp xs) (hq : selector.Requested)
    (ht : selector.isTextFree = true)
    (hp : Plan.make selector (Catalog.sorted (xs.map (·.definition))) sort = .ok p)
    (hy : p.Lists w.database found) :
    ∃ docs, ResultSet.documents { rows := found.map fun f => (f.docId, f.revId) }
        (fun docId revId => .ok (w.store.revision? docId revId)) = .ok docs ∧
      (docs.map (·.docId)).Nodup ∧ ∀ r, r ∈ docs ↔ w.store.winning? r.docId = some r ∧ r.deleted = false ∧
        selector.SatisfiedBy (Catalog.sorted (xs.map (·.definition))) sort r := by
  obtain ⟨hn, _, _⟩ := Planner.make_runs hq ht hp
  have hcompiles := Plan.compiles_of_make hq hp
  have hdocs : (found.map fun f => (f.docId, f.revId)).filterMap
      (fun row => (w.store.revision? row.1 row.2).filter (!·.deleted)) =
      (found.map (·.docId)).filterMap w.store.winning? := by
    rw [List.filterMap_map, List.filterMap_map]
    exact List.filterMap_congr fun f hf => h.revision?_eq hc hcompiles hn hy hf
  refine ⟨(found.map (·.docId)).filterMap w.store.winning?, ?_, ?_, ?_⟩
  · rw [ResultSet.documents_eq w.store.revision?, hdocs]
  · rw [List.map_filterMap]
    refine hy.nodup.filterMap ?_
    intro a b id ha hb
    obtain ⟨r, hr, hrid⟩ := Option.map_eq_some_iff.mp ha
    obtain ⟨q, hq', hqid⟩ := Option.map_eq_some_iff.mp hb
    rw [← h.store.winning_docId hr, ← h.store.winning_docId hq', hrid, hqid]
  · intro r
    rw [List.mem_filterMap]
    constructor
    · rintro ⟨id, hid, hr⟩
      obtain rfl := h.store.winning_docId hr
      have hfinds := (hy.mem_iff _).mp hid
      have hlive := h.live_of_finds hc hn hr hfinds
      rw [h.finds_iff hc hn hr hlive, Planner.make_finds _ _ ht hp] at hfinds
      exact ⟨hr, hlive, hfinds⟩
    · rintro ⟨hr, hlive, hsat⟩
      refine ⟨r.docId, (hy.mem_iff _).mpr ?_, hr⟩
      rw [h.finds_iff hc hn hr hlive, Planner.make_finds _ _ ht hp]
      exact hsat

end Sound

end World

end DocIndex
