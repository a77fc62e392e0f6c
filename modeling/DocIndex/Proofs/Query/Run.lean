import DocIndex.Proofs.Query.Results
import DocIndex.Proofs.Query.Scans

/-! # Running plans

The statement of a plan reads the tables of all indexes that the plan scans and searches. What the plan finds has
a row in one of these tables, so the statement loses none of it. The results are sorted by the keys of the plan and
then by document id.
-/

namespace DocIndex

variable {db : Database} {p : Plan} {d : Definition} {ds : List Definition} {seen : List String}

theorem Compile.sortColumns_branch (order : Definition) (sort : List SortKey) (d : Definition) :
    (branch order sort (sort.map fun key => order.columnOf key.path) d).sortColumns =
      sort.map fun key =>
        if isBuiltin key.path || d.name == order.name then some (order.columnOf key.path) else none := by
  rw [branch, ← List.map_prod_left_eq_zip, List.map_map]
  rfl

namespace Plan

theorem mem_of_mem_distinct (h : d ∈ distinct seen ds) : d ∈ ds := by
  induction ds generalizing seen with
  | nil => exact h
  | cons e rest ih =>
    unfold distinct at h
    split at h
    · exact List.mem_cons_of_mem _ (ih h)
    · rcases List.mem_cons.mp h with rfl | h
      · exact List.mem_cons_self
      · exact List.mem_cons_of_mem _ (ih h)

theorem exists_mem_distinct (hd : d ∈ ds) (hseen : d.name ∉ seen) : ∃ e ∈ distinct seen ds, e.name = d.name := by
  induction ds generalizing seen with
  | nil => exact absurd hd List.not_mem_nil
  | cons e rest ih =>
    unfold distinct
    rcases List.mem_cons.mp hd with rfl | hd
    · have hnew : seen.contains d.name = false := by simpa using hseen
      rw [hnew]
      exact ⟨d, List.mem_cons_self, rfl⟩
    · split
      · exact ih hd hseen
      · by_cases hname : d.name = e.name
        · exact ⟨e, List.mem_cons_self, hname.symm⟩
        · have hseen' : d.name ∉ e.name :: seen := by
            rw [List.mem_cons, not_or]
            exact ⟨hname, hseen⟩
          obtain ⟨e', he', heq⟩ := ih hd hseen'
          exact ⟨e', List.mem_cons_of_mem _ he', heq⟩

theorem mem_of_mem_indexes (h : p.Compiles) (hd : d ∈ p.indexes) : d ∈ p.root.scans ++ p.root.texts := by
  have hmem := mem_of_mem_distinct hd
  rw [List.cons_append] at hmem
  rcases List.mem_cons.mp hmem with rfl | hmem
  · exact (Planner.orderIndex_ok h.order).1
  · exact hmem

theorem exists_index (hd : d ∈ p.root.scans ++ p.root.texts) : ∃ e ∈ p.indexes, e.tableName = d.tableName := by
  have hmem : d ∈ p.orderIndex :: p.root.scans ++ p.root.texts := by
    rw [List.cons_append]
    exact List.mem_cons_of_mem _ hd
  obtain ⟨e, he, hname⟩ := exists_mem_distinct hmem List.not_mem_nil
  exact ⟨e, he, congrArg tableNameOf hname⟩

theorem name_notMem_of_mem_distinct (hd : d ∈ distinct seen ds) : d.name ∉ seen := by
  induction ds generalizing seen with
  | nil => exact absurd hd List.not_mem_nil
  | cons e rest ih =>
    unfold distinct at hd
    split at hd
    · exact ih hd
    · rename_i hnew
      rcases List.mem_cons.mp hd with rfl | hd
      · exact fun hmem => hnew (List.contains_iff_mem.mpr hmem)
      · exact fun hmem => ih hd (List.mem_cons_of_mem _ hmem)

theorem eq_orderIndex (hd : d ∈ p.indexes) (hname : d.name = p.orderIndex.name) : d = p.orderIndex := by
  rcases List.mem_cons.mp hd with h | h
  · exact h
  · refine absurd ?_ (name_notMem_of_mem_distinct h)
    rw [hname]
    exact List.mem_cons_self

/-- A plan that the tables can answer: all rows of its indexes are there to read, and its searches are accepted. -/
structure Readable (db : Database) (p : Plan) : Prop where
  compiles : p.Compiles
  tables : ∀ d ∈ p.indexes, ∃ t, db.table? d.tableName = .ok t ∧ t.rows? = .ok t.rows
  searches : ∀ s ∈ p.searches, db.Accepts s.1 s.2

namespace Readable

theorem table (h : p.Readable db) (hd : d ∈ p.root.scans ++ p.root.texts) :
    ∃ e ∈ p.indexes, ∃ t, db.table? e.tableName = .ok t ∧ db.table? d.tableName = .ok t ∧ t.rows? = .ok t.rows := by
  obtain ⟨e, he, hname⟩ := exists_index hd
  obtain ⟨t, ht, hrows⟩ := h.tables e he
  exact ⟨e, he, t, ht, by rw [← hname]; exact ht, hrows⟩

theorem uses (h : p.Readable db) : p.root.Uses db.Serves db.Accepts := by
  refine h.compiles.root.mono (fun d hd g hg => ?_) fun s hs _ => h.searches s hs
  obtain ⟨_, _, t, _, ht, hrows⟩ := h.table (List.mem_append_left _ hd)
  exact ⟨⟨t, ht, hrows⟩, hg.covers, hg.requested⟩

theorem readable (h : p.Readable db) (skip : Nat) (limit? : Option Nat) :
    Statement.Readable db (p.statement skip limit?).branches := by
  intro b hb
  obtain ⟨d, hd, rfl⟩ := List.mem_map.mp hb
  exact h.tables d hd

end Readable

/-! ## Results -/

def Reads (db : Database) (p : Plan) (docId revId : String) : Prop :=
  ∃ d ∈ p.indexes, ∃ t, db.table? d.tableName = .ok t ∧ ∃ r ∈ t.rows, r.docId = docId ∧ r.revId = revId

/-- The tables give this value of a field for a document: that of the ordering index, or any of them if the field
is an identifier. -/
def Cell (db : Database) (p : Plan) (path docId : String) (v : SqlValue) : Prop :=
  ∃ d ∈ p.indexes, (isBuiltin path = true ∨ d = p.orderIndex) ∧
    ∃ t, db.table? d.tableName = .ok t ∧ ∃ r ∈ t.rows, r.docId = docId ∧ t.cellAt d r path = v

def Keyed (db : Database) (p : Plan) (f : Found) : Prop :=
  List.Forall₂ (fun key v => key.direction.IsKey (p.Cell db key.path f.docId) v) p.sort f.keys

/-- The results of a plan: the documents that it finds, each once and with its sort keys, in order. -/
structure Lists (db : Database) (p : Plan) (found : List Found) : Prop where
  nodup : (found.map (·.docId)).Nodup
  mem_iff : ∀ id, id ∈ found.map (·.docId) ↔ p.root.Finds (db.Scans id) (db.Matches id)
  reads : ∀ f ∈ found, p.Reads db f.docId f.revId
  keyed : ∀ f ∈ found, p.Keyed db f
  sorted : found.Pairwise fun a b => KeysBefore (p.sort.map (·.direction)) a.keys b.keys ∨
    (List.Forall₂ (fun v w => v.order w = .eq) a.keys b.keys ∧ a.docId < b.docId)

variable {skip : Nat} {limit? : Option Nat}

theorem reads_iff {docId revId : String} :
    Statement.Reads db (p.statement skip limit?).branches docId revId ↔ p.Reads db docId revId := by
  simp only [Statement.Reads, Reads, statement, List.mem_map, exists_exists_and_eq_and]
  rfl

theorem cell_iff (h : p.Compiles) {position : Nat} {key : SortKey} (hkey : p.sort[position]? = some key)
    {docId : String} {v : SqlValue} (hv : v ≠ .null) :
    Statement.Cell db (p.statement skip limit?).branches position docId v ↔ p.Cell db key.path docId v := by
  have hcovers := (Planner.orderIndex_ok h.order).2 key (List.mem_of_getElem? hkey)
  have hcell : ∀ d ∈ p.indexes, ∀ (t : Table) (r : Row),
      (((Compile.branch p.orderIndex p.sort (p.sort.map fun key => p.orderIndex.columnOf key.path) d).sortColumns.getD
        position none).elim .null (t.cell r) = v ↔
      (isBuiltin key.path = true ∨ d = p.orderIndex) ∧ t.cellAt d r key.path = v) := by
    intro d hd t r
    rw [Compile.sortColumns_branch, List.getD_eq_getElem?_getD, List.getElem?_map, hkey, Option.map_some,
      Option.getD_some]
    by_cases hbuiltin : isBuiltin key.path = true
    · have hcolumn : ∀ e : Definition, e.columnFor? key.path = some key.path := fun e => if_pos hbuiltin
      simp [hbuiltin, Table.cellAt, hcolumn, Definition.columnOf]
    · by_cases hname : d.name = p.orderIndex.name
      · obtain rfl := eq_orderIndex hd hname
        simp [Table.cellAt_eq hcovers]
      · have hother : d ≠ p.orderIndex := fun heq => hname (congrArg Definition.name heq)
        simp [hbuiltin, hname, hother, hv.symm]
  constructor
  · rintro ⟨b, hb, t, ht, r, hr, hid, hvalue⟩
    obtain ⟨d, hd, rfl⟩ := List.mem_map.mp hb
    obtain ⟨hfield, hvalue⟩ := (hcell d hd t r).mp hvalue
    exact ⟨d, hd, hfield, t, ht, r, hr, hid, hvalue⟩
  · rintro ⟨d, hd, hfield, t, ht, r, hr, hid, hvalue⟩
    exact ⟨_, List.mem_map_of_mem hd, t, ht, r, hr, hid, (hcell d hd t r).mpr ⟨hfield, hvalue⟩⟩

theorem Readable.reads_of_finds (h : p.Readable db) {docId : String}
    (hfinds : p.root.Finds (db.Scans docId) (db.Matches docId)) : ∃ revId, p.Reads db docId revId := by
  rcases h.uses.shows hfinds with ⟨d, hd, g, t, ht, hscan⟩ | ⟨s, hs, t, rows, ht, hrows, r, hr, hid⟩
  · obtain ⟨e, he, u, hu, ht', _⟩ := h.table (List.mem_append_left _ hd)
    obtain rfl := Except.ok.inj (ht'.symm.trans ht)
    obtain ⟨r, hr, hid, _⟩ := hscan.row
    exact ⟨r.revId, e, he, u, hu, r, hr, hid, rfl⟩
  · obtain ⟨e, he, u, hu, ht', hknown⟩ := h.table (List.mem_append_right _ (List.mem_map_of_mem hs))
    obtain rfl := Except.ok.inj (ht'.symm.trans ht)
    exact ⟨r.revId, e, he, u, hu, r, Table.mem_of_matching hknown hrows hr, hid, rfl⟩

theorem eq_docId_of_isKey {direction : SortDirection} {docId revId : String} {v : SqlValue}
    (hreads : p.Reads db docId revId) (h : direction.IsKey (p.Cell db idColumn docId) v) : v = .text docId := by
  rcases h with ⟨_, hall⟩ | ⟨_, ⟨d, _, _, t, _, r, _, hid, hcell⟩, _⟩
  · obtain ⟨d, hd, t, ht, r, hr, hid, _⟩ := hreads
    have hnull := hall _ ⟨d, hd, Or.inl rfl, t, ht, r, hr, hid, rfl⟩
    rw [Table.cellAt_id] at hnull
    cases hnull
  · rw [← hcell, Table.cellAt_id, hid]

theorem docId_eq_of_ties {a b : Found} {key : SortKey} (hkey : key ∈ p.sort) (hpath : key.path = idColumn)
    (ha : p.Keyed db a) (hb : p.Keyed db b) (hreads : p.Reads db a.docId a.revId) (hreads' : p.Reads db b.docId b.revId)
    (hties : List.Forall₂ (fun v w => v.order w = .eq) a.keys b.keys) : a.docId = b.docId := by
  obtain ⟨i, hi, rfl⟩ := List.getElem_of_mem hkey
  have hi' : i < a.keys.length := ha.length_eq ▸ hi
  have hi'' : i < b.keys.length := hb.length_eq ▸ hi
  have hav := ha.get hi hi'
  have hbv := hb.get hi hi''
  have htie := hties.get hi' hi''
  simp only [List.get_eq_getElem, hpath] at hav hbv htie
  rw [eq_docId_of_isKey hreads hav, eq_docId_of_isKey hreads' hbv, SqlValue.order_text] at htie
  exact Std.LawfulEqCmp.eq_of_compare htie

theorem keyed_of_finds (h : p.Compiles) {found : List Found} {ids : String → Prop}
    (hfinds : (p.statement skip limit?).Finds db ids found) {f : Found} (hf : f ∈ found) : p.Keyed db f := by
  have hlength : f.keys.length = p.sort.length := by simpa [statement] using hfinds.keys_length f hf
  unfold Keyed
  rw [List.forall₂_iff_get]
  refine ⟨hlength.symm, fun i hi hi' => ?_⟩
  have hkey : p.sort[i]? = some p.sort[i] := List.getElem?_eq_getElem hi
  obtain ⟨v, hv, hisKey⟩ := hfinds.keys f hf i p.sort[i].direction (by simp [statement, hkey])
  have hvalue : v = f.keys[i] := Option.some.inj (hv.symm.trans (List.getElem?_eq_getElem hi'))
  rw [hvalue] at hisKey
  exact hisKey.congr fun w hw => cell_iff h hkey hw

/-- The results of a plan do not depend on the page that is asked for. -/
theorem Readable.exists_lists (h : p.Readable db) :
    ∃ found, p.Lists db found ∧ ∀ skip limit?, (p.statement skip limit?).results? db = .ok found := by
  obtain ⟨found, hfound, hfinds⟩ := Statement.results?_ok (h.readable 0 none) (Compile.node_lists h.uses)
  have hreads : ∀ f ∈ found, p.Reads db f.docId f.revId := fun f hf => reads_iff.mp (hfinds.reads f hf)
  have hkeyed : ∀ f ∈ found, p.Keyed db f := fun f hf => keyed_of_finds h.compiles hfinds hf
  refine ⟨found, ⟨hfinds.nodup, ?_, hreads, hkeyed, ?_⟩, fun _ _ => hfound⟩
  · intro id
    rw [hfinds.mem_iff id, and_iff_left_iff_imp]
    intro hfinds
    obtain ⟨revId, hreads⟩ := h.reads_of_finds hfinds
    exact ⟨revId, reads_iff.mpr hreads⟩
  · have hdistinct : found.Pairwise fun a b => a.docId ≠ b.docId := List.pairwise_map.mp hfinds.nodup
    refine (hfinds.sorted.and hdistinct).imp_of_mem fun {a b} ha hb hab => ?_
    obtain ⟨hbefore, hne⟩ := hab
    rcases Statement.of_isBefore (hfinds.keys_length a ha) (hfinds.keys_length b hb) hbefore with hkey | ⟨hties, hids⟩
    · exact Or.inl hkey
    refine Or.inr ⟨hties, ?_⟩
    by_cases hbroken : (p.statement 0 none).breakTies = true
    · exact (hids hbroken).resolve_right hne
    · have hsorted : p.sort.any (·.path == idColumn) = true := by simpa [statement] using hbroken
      obtain ⟨key, hkey, hpath⟩ := List.any_eq_true.mp hsorted
      have hsame :=
        docId_eq_of_ties hkey (beq_iff_eq.mp hpath) (hkeyed a ha) (hkeyed b hb) (hreads a ha) (hreads b hb) hties
      exact absurd hsame hne

/-! ## Pages -/

/-- A page of some results. Numbers that are too large for a statement are the largest ones. -/
def window {α : Type} (skip : Nat) (limit? : Option Nat) (results : List α) : List α :=
  let rest := results.drop (min skip Compile.largest)
  limit?.elim rest fun limit => rest.take (min limit Compile.largest)

theorem page_eq {α : Type} (skip : Nat) (limit? : Option Nat) (results : List α) :
    Statement.page (Compile.clamp skip) (limit?.elim (-1) Compile.clamp) results = window skip limit? results := by
  unfold Statement.page window Compile.clamp
  cases limit? with
  | none => rfl
  | some limit =>
    have hlimit : ¬ ((min limit Compile.largest : Nat) : Int) < 0 := by omega
    simp only [Option.elim_some, hlimit, if_false, Int.toNat_natCast]

theorem Readable.run_eq (h : p.Readable db) {found : List Found}
    (hfound : (p.statement skip limit?).results? db = .ok found) :
    (p.statement skip limit?).run db = if (p.statement skip limit?).isWithinLimits then
      .ok ((window skip limit? found).map fun f => (f.docId, f.revId)) else .error .tooLarge := by
  rw [Statement.run_eq (h.readable skip limit?) (Compile.node_lists h.uses) hfound, ← page_eq]
  rfl

end Plan

end DocIndex
