import DocIndex.Proofs.Database.Holds

/-! # Batches of changes

On a database that holds its contents a batch never fails. If the checkpoint of its index still is where
the batch starts, the content absorbs the changes and its checkpoint moves along; otherwise nothing
changes. All other contents stay.
-/

namespace DocIndex

namespace Database

variable {db : Database} {x y : Content} {xs : List Content} {r : Revision}

theorem Holds.withCatalog (h : db.Holds xs) (hx : x ∈ xs) {f : Definition → Definition}
    (hn : (f x.definition).name = x.definition.name) (hk : (f x.definition).kind = x.definition.kind)
    (hs : (f x.definition).settings = x.definition.settings) (hp : (f x.definition).paths = x.definition.paths) :
    ({ db with catalog := Catalog.ofDefinitions (Catalog.change x.name f (xs.map (·.definition))) } : Database).Holds
      (Content.put ⟨f x.definition, x.rows⟩ xs) := by
  have hname : x.name = Content.name ⟨f x.definition, x.rows⟩ := hn.symm
  refine ⟨?_, ?_, ?_, ?_⟩
  · rw [Content.map_definition_put, ← hname]
    refine congrArg Catalog.ofDefinitions (Catalog.change_congr ?_)
    intro d hd hd'
    obtain ⟨z, hz, rfl⟩ := List.mem_map.mp hd
    obtain rfl := Content.eq_of_name_eq h.distinct hz hx hd'
    rfl
  · rw [Content.map_name_put]
    exact h.distinct
  · intro z hz
    rcases Content.mem_put.mp hz with ⟨hz, _⟩ | ⟨rfl, _⟩
    · exact h.valid z hz
    · exact (h.valid x hx).congr hn hk hs hp
  · obtain ⟨t, ht, hkeep, hfind⟩ := h.tables.find? hx
    have hkeep' : t.Keeps ⟨f x.definition, x.rows⟩ := by
      refine ⟨?_, ?_, ?_, hkeep.rows_eq, hkeep.lost_eq, hkeep.opened, ?_, ?_⟩
      · rw [hkeep.name_eq, Definition.tableName, Definition.tableName, hn]
      · rw [hkeep.columns_eq, Definition.fieldColumns_eq_of_paths hp]
      · rw [hkeep.lookups_eq, Definition.lookups_eq_of_paths hn hk hp]
      · rw [hk]
        exact hkeep.fits
      · rw [hk]
        exact hkeep.parts_eq
    have hsame : ∀ u ∈ db.tables, u.Keeps x → t.allNames = u.allNames := by
      intro u hu hku
      rw [Table.eq_of_name h.tables.apart ht hu (hkeep.name_eq.trans hku.name_eq.symm)]
    have hreplaced := h.tables.replace h.distinct hx hname hkeep' hsame
    have hid : (db.tables.map fun u => if u.name = x.definition.tableName then t else u) = db.tables := by
      conv_rhs => rw [← List.map_id db.tables]
      refine List.map_congr_left fun u hu => ?_
      split
      · exact Table.eq_of_name h.tables.apart ht hu (hkeep.name_eq.trans (Eq.symm ‹_›))
      · rfl
    rwa [hid] at hreplaced

theorem Holds.map_definition_put_rows (h : db.Holds xs) (hx : x ∈ xs) (rows : List Row) :
    (Content.put ⟨x.definition, rows⟩ xs).map (·.definition) = xs.map (·.definition) :=
  Content.map_put _ h.distinct hx rfl rfl

theorem Holds.modifyTable (h : db.Holds xs) (hx : x ∈ xs) (rows : List Row)
    {change : Table → Except SqlFault Table}
    (hc : ∀ t : Table, t.Keeps x → ∃ worded, change t = .ok { t with rows, worded }) :
    ∃ tables, db.modifyTable x.definition.tableName change = .ok { db with tables } ∧
      ({ db with tables } : Database).Holds (Content.put ⟨x.definition, rows⟩ xs) := by
  obtain ⟨t, ht, hkeep, htable⟩ := h.table? hx
  obtain ⟨worded, hchange⟩ := hc t hkeep
  refine ⟨db.tables.map fun u => if u.name = x.definition.tableName then { t with rows, worded } else u, ?_, ?_⟩
  · unfold Database.modifyTable
    simp only [htable, hchange, bind, Except.bind]
  · have hname : x.name = Content.name ⟨x.definition, rows⟩ := rfl
    have hkeep' : ({ t with rows, worded } : Table).Keeps ⟨x.definition, rows⟩ :=
      ⟨hkeep.name_eq, hkeep.columns_eq, hkeep.lookups_eq, rfl, hkeep.lost_eq, hkeep.opened, hkeep.fits,
        hkeep.parts_eq⟩
    have hsame : ∀ u ∈ db.tables, u.Keeps x → ({ t with rows, worded } : Table).allNames = u.allNames := by
      intro u hu hku
      rw [Table.eq_of_name h.tables.apart hu ht (hku.name_eq.trans hkeep.name_eq.symm)]
      rfl
    refine ⟨?_, ?_, ?_, h.tables.replace h.distinct hx hname hkeep' hsame⟩
    · rw [h.map_definition_put_rows hx]
      exact h.catalog_eq
    · rw [Content.map_name_put]
      exact h.distinct
    · intro z hz
      rcases Content.mem_put.mp hz with ⟨hz, _⟩ | ⟨rfl, _⟩
      · exact h.valid z hz
      · exact h.valid x hx

theorem Holds.clear (h : db.Holds xs) (hx : x ∈ xs) (id : String) :
    ∃ tables, db.modifyTable x.definition.tableName (·.erase? id) = .ok { db with tables } ∧
      ({ db with tables } : Database).Holds (Content.put ⟨x.definition, x.rows.filter (·.docId != id)⟩ xs) := by
  refine h.modifyTable hx _ fun t ht => ⟨t.worded, ?_⟩
  rw [ht.erase?, ht.rows_eq]

theorem Holds.fill (h : db.Holds xs) (hx : x ∈ xs) (rows : List Row) :
    ∃ tables, db.modifyTable x.definition.tableName (·.append? rows) = .ok { db with tables } ∧
      ({ db with tables } : Database).Holds (Content.put ⟨x.definition, x.rows ++ rows⟩ xs) := by
  refine h.modifyTable hx _ fun t ht => ⟨t.worded || t.haveWords rows, ?_⟩
  rw [ht.append?, ht.rows_eq]

theorem Holds.record (h : db.Holds xs) (hx : x ∈ xs) (r : Revision) :
    ({ db with catalog := recordTypes db.catalog x.name (x.definition.documentRows r).observed } : Database).Holds
      (Content.put ⟨x.definition.settled r, x.rows⟩ xs) := by
  have hsettled := Catalog.withTypes_observed (h.valid x hx).distinct r
  have hholds := h.withCatalog (f := Catalog.withTypes (x.definition.documentRows r).observed) hx rfl rfl rfl (by
    rw [hsettled]
    exact Definition.settled_paths _ r)
  rw [hsettled, ← Catalog.recordTypes_ofDefinitions, ← h.catalog_eq] at hholds
  exact hholds

theorem Holds.applyChange (h : db.Holds xs) (hx : x ∈ xs) (r : Revision) :
    ∃ next, db.applyChange x.definition r = .ok (next, (x.absorb r).definition) ∧
      next.Holds (Content.put (x.absorb r) xs) ∧ next.schema = db.schema := by
  obtain ⟨cleared, hcleared, hholds⟩ := h.clear hx r.docId
  unfold Database.applyChange Content.absorb
  cases hd : r.deleted with
  | true =>
    refine ⟨{ db with tables := cleared }, ?_, hholds, rfl⟩
    simp only [hcleared, if_true, bind, Except.bind]
  | false =>
    obtain ⟨filled, hfilled, hholds'⟩ := hholds.fill (Content.mem_put_self hx rfl) (x.definition.documentRows r).rows
    have hrecorded := hholds'.record (Content.mem_put_self (Content.mem_put_self hx rfl) rfl) r
    rw [Content.put_put, Content.put_put] at hrecorded
    · refine ⟨_, ?_, hrecorded, rfl⟩
      simp only [hcleared, hfilled, Bool.false_eq_true, if_false, bind, Except.bind]
      rfl
    · rfl
    · rfl

theorem Holds.put_self (h : db.Holds xs) (hx : x ∈ xs) : Content.put x xs = xs := by
  conv_rhs => rw [← List.map_id xs]
  refine List.map_congr_left fun z hz => ?_
  split
  · exact Content.eq_of_name_eq h.distinct hx hz (Eq.symm ‹_›)
  · rfl

theorem Holds.applyChanges (h : db.Holds xs) (hx : x ∈ xs) (changes : List Revision) :
    ∃ next, applyChanges x.definition changes db = .ok next ∧
      next.Holds (Content.put (x.absorbAll changes) xs) ∧ next.schema = db.schema := by
  induction changes generalizing db x xs with
  | nil =>
    have hid : Content.put (x.absorbAll []) xs = xs := h.put_self hx
    exact ⟨db, rfl, by rw [hid]; exact h, rfl⟩
  | cons r rest ih =>
    obtain ⟨next, hnext, hholds, hschema⟩ := h.applyChange hx r
    have hname : x.name = (x.absorb r).name := (Content.absorb_name x r).symm
    obtain ⟨last, hlast, hholds', hschema'⟩ := ih hholds (Content.mem_put_self hx hname)
    rw [Content.put_put (Content.absorbAll_name _ rest).symm] at hholds'
    refine ⟨last, ?_, hholds', hschema'.trans hschema⟩
    simp only [Database.applyChanges, hnext, bind, Except.bind]
    exact hlast

/-! ## A whole batch -/

theorem Holds.setLastSequence (h : db.Holds xs) (hx : x ∈ xs) (sequence : Int) :
    ({ db with catalog := db.catalog.setLastSequence x.name sequence } : Database).Holds
      (Content.put ⟨{ x.definition with lastSequence := sequence }, x.rows⟩ xs) := by
  have hholds := h.withCatalog (f := fun d => { d with lastSequence := sequence }) hx rfl rfl rfl rfl
  rwa [← Catalog.setLastSequence_ofDefinitions, ← h.catalog_eq] at hholds

theorem Holds.applyBatch_vanished (h : db.Holds xs) {index : String} (hname : ∀ x ∈ xs, x.name ≠ index)
    (since : Int) (p : Page) : db.applyBatch index since p.changes p.checkpoint = .ok .vanished := by
  unfold Database.applyBatch
  simp only [h.definition?_none hname, bind, Except.bind]

theorem Holds.applyBatch_moved (h : db.Holds xs) (hx : x ∈ xs) {since : Int}
    (hne : x.definition.lastSequence ≠ since) (p : Page) :
    db.applyBatch x.name since p.changes p.checkpoint = .ok (.moved x.definition.lastSequence) := by
  unfold Database.applyBatch
  simp only [h.definition? hx, bind, Except.bind, if_pos hne]

theorem Holds.applyBatch_applied (h : db.Holds xs) (hx : x ∈ xs) (p : Page) :
    ∃ next, db.applyBatch x.name x.definition.lastSequence p.changes p.checkpoint = .ok (.applied next) ∧
      next.Holds (Content.put (x.apply p) xs) ∧ next.schema = db.schema := by
  obtain ⟨next, hnext, hholds, hschema⟩ := h.applyChanges hx p.changes
  have hname : x.name = (x.absorbAll p.changes).name := (Content.absorbAll_name x p.changes).symm
  have hlast := hholds.setLastSequence (Content.mem_put_self hx hname) p.checkpoint
  have hput : Content.put (x.apply p) (Content.put (x.absorbAll p.changes) xs) = Content.put (x.apply p) xs :=
    Content.put_put (show (x.absorbAll p.changes).name = (x.apply p).name from rfl) xs
  rw [← hname] at hlast
  rw [← hput]
  refine ⟨_, ?_, hlast, hschema⟩
  unfold Database.applyBatch
  simp only [h.definition? hx, hnext, ne_eq, not_true, if_false, bind, Except.bind, lift]

/-- A batch never fails. If it is applied, it is to the index of this name, from its checkpoint. -/
theorem Holds.applyBatch_cases (h : db.Holds xs) (index : String) (since : Int) (p : Page) :
    ∃ outcome, db.applyBatch index since p.changes p.checkpoint = .ok outcome ∧
      ∀ next, outcome = .applied next → ∃ x ∈ xs, x.name = index ∧ x.definition.lastSequence = since ∧
        next.Holds (Content.put (x.apply p) xs) := by
  by_cases hthere : ∃ x ∈ xs, x.name = index
  · obtain ⟨x, hx, rfl⟩ := hthere
    by_cases hsince : x.definition.lastSequence = since
    · subst hsince
      obtain ⟨next, hnext, hholds, _⟩ := h.applyBatch_applied hx p
      refine ⟨_, hnext, ?_⟩
      rintro _ ⟨⟩
      exact ⟨x, hx, rfl, rfl, hholds⟩
    · exact ⟨_, h.applyBatch_moved hx hsince p, nofun⟩
  · have hnone : ∀ x ∈ xs, x.name ≠ index := fun x hx hname => hthere ⟨x, hx, hname⟩
    exact ⟨_, h.applyBatch_vanished hnone since p, nofun⟩

end Database

end DocIndex
