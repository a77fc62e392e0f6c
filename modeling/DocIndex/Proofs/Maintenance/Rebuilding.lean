import DocIndex.Proofs.Database.Recorded
import DocIndex.Proofs.Maintenance.Names

/-! # Opening a database anew

Whoever opens a database drops the tables of all indexes that have an older layout and makes them again, without rows.
This cannot fail once the database itself can be opened: a table that was made once can be made again, for nothing that
it is made of has changed since then, and all of its names are free when it is dropped. Indexes of the current layout
keep their tables, and where all indexes are of the current layout nothing changes.
-/

namespace DocIndex

/-- The definition after the database was opened: one of an older layout begins anew in the current one. -/
def Definition.upgraded (d : Definition) : Definition :=
  if d.schemaVersion < currentLayout then { d with lastSequence := 0, schemaVersion := currentLayout } else d

namespace Definition

variable (d : Definition)

theorem upgraded_current : currentLayout ≤ d.upgraded.schemaVersion := by
  unfold upgraded
  split
  · exact Int.le_refl _
  · exact Int.not_lt.mp ‹_›

theorem upgraded_name : d.upgraded.name = d.name := by
  unfold upgraded
  split <;> rfl

end Definition

theorem Catalog.map_upgraded_sorted (ds : List Definition) :
    (sorted ds).map Definition.upgraded = sorted (ds.map Definition.upgraded) :=
  List.map_mergeSort fun d _ e _ => by rw [d.upgraded_name, e.upgraded_name]

namespace Database

variable {db next : Database} {d later : Definition} {x y : Content} {xs : List Content} {ds : List Definition}
variable {s : IndexSpec} {name : String} {t : Table}

/-! ## The tables of the layout -/

/-- The schema that the migration of the catalog makes. -/
def migrated : Schema := { contents := [catalogTable], ledger? := some [(component, 1)] }

/-- Nothing but the migration of the catalog has made tables, if it has been made. -/
def IsOurs (db : Database) : Prop := db.schema = {} ∨ db.schema = migrated

theorem IsOurs.congr (h : db.IsOurs) (hsame : next.schema = db.schema) : next.IsOurs := by
  unfold IsOurs
  rw [hsame]
  exact h

theorem IsOurs.prepare (h : db.IsOurs) : db.prepare = .ok { db with schema := migrated } := by
  unfold Database.prepare
  rcases h with h | h <;> rw [h] <;> rfl

theorem IsOurs.free (h : db.IsOurs) {n : String} (hn : n ∈ d.takenNames) :
    db.withoutIndexes.isTaken n = false := by
  have hledger : ∀ rest, sameName Schema.ledgerTable ("_sofa_query_" ++ rest) = false := by
    intro rest
    have hname : "_sofa_query_" ++ rest = "_sofa_" ++ ("query_" ++ rest) := by rw [← String.append_assoc]; rfl
    rw [hname, show Schema.ledgerTable = "_sofa_" ++ "schema_migrations" from rfl, sameName_append_left,
      ← Bool.not_eq_true]
    intro hsame
    have hfirst := congrArg List.head? (sameName_iff.mp hsame)
    simp at hfirst
  have hcatalog : ∀ front rest, front = "index_" ∨ front = "key_" →
      sameName catalogTable ("_sofa_query_" ++ (front ++ rest)) = false := by
    intro front rest hfront
    rw [show catalogTable = "_sofa_query_" ++ "metadata" from rfl, sameName_append_left, ← Bool.not_eq_true]
    intro hsame
    have hfirst := congrArg List.head? (sameName_iff.mp hsame)
    rcases hfront with rfl | rfl <;> simp at hfirst
  have hlooks : ∃ front rest, (front = "index_" ∨ front = "key_") ∧ n = "_sofa_query_" ++ (front ++ rest) := by
    rcases Definition.mem_takenNames hn with rfl | ⟨_, p, rfl⟩ | ⟨purpose, _, rfl⟩
    · exact ⟨"index_", d.name, Or.inl rfl, by rw [← String.append_assoc]; rfl⟩
    · exact ⟨"index_", d.name ++ p.suffix, Or.inl rfl, by rw [← String.append_assoc]; rfl⟩
    · refine ⟨"key_", purpose ++ "_" ++ d.name, Or.inr rfl, ?_⟩
      rw [← String.append_assoc, ← String.append_assoc, ← String.append_assoc]
      rfl
  obtain ⟨front, rest, hfront, rfl⟩ := hlooks
  have htables : db.schema.tables = [] ∨ db.schema.tables = [Schema.ledgerTable, catalogTable] :=
    h.imp (fun h => by rw [h]; rfl) fun h => by rw [h]; rfl
  unfold withoutIndexes isTaken Schema.hasTable
  rcases htables with htables | htables <;> simp [htables, hledger, hcatalog front rest hfront]

/-! ## Tables that can be made again -/

theorem emptyTable?_of_continues (h : d.Continues later) : emptyTable? later = emptyTable? d := by
  have hpaths : later.paths = d.paths := h.refines.map_path
  have htable : later.tableName = d.tableName := congrArg tableNameOf h.name_eq
  unfold emptyTable? fullTextForm?
  rw [htable, h.kind_eq, h.settings_eq, Definition.fieldColumns_eq_of_paths hpaths,
    Definition.lookups_eq_of_paths h.name_eq h.kind_eq hpaths]

/-- The database holds contents whose tables can be made, and has no tables but theirs and those of the layout. -/
structure Renews (db : Database) (xs : List Content) : Prop where
  holds : db.Holds xs
  isOurs : db.IsOurs
  makeable : ∀ x ∈ xs, ∃ t, emptyTable? x.definition = .ok t

theorem Renews.empty : Renews {} [] := ⟨.empty, Or.inl rfl, by simp⟩

theorem Renews.put (h : db.Renews xs) (hx : x ∈ xs) (hy : x.definition.Continues y.definition)
    (hholds : next.Holds (Content.put y xs)) (hschema : next.schema = db.schema) :
    next.Renews (Content.put y xs) := by
  refine ⟨hholds, h.isOurs.congr hschema, fun z hz => ?_⟩
  rcases Content.mem_put.mp hz with ⟨hz, _⟩ | ⟨rfl, _⟩
  · exact h.makeable z hz
  · rw [emptyTable?_of_continues hy]
    exact h.makeable x hx

theorem createTable_eq (ht : emptyTable? d = .ok t) (hfree : ∀ n ∈ t.takenNames, db.isTaken n = false) :
    db.createTable d = .ok { db with tables := db.tables ++ [t] } := by
  have hnone : t.takenNames.find? db.isTaken = none := by simpa using hfree
  unfold createTable
  simp only [ht, hnone, bind, Except.bind]

theorem Holds.not_clashes (h : db.Holds xs) (hx : x ∈ xs) (hy : y ∈ xs) (hne : x.name ≠ y.name) :
    ¬ x.definition.Clashes y.definition := by
  have hpart : ∀ {x y : Content}, x ∈ xs → y ∈ xs → x.name ≠ y.name →
      ¬ x.definition.IsNamedAsPartOf y.definition := by
    rintro x y hx hy hne ⟨hkind, p, hsame⟩
    obtain ⟨t, ht, hkeep⟩ := h.tables.kept x hx
    obtain ⟨u, hu, hkeep'⟩ := h.tables.kept y hy
    have hmem : tableNameOf (y.name ++ p.suffix) ∈ u.allNames := by
      have hp : p ∈ u.form.parts := by
        rw [hkeep'.parts_eq, hkind]
        cases p <;> decide
      have hname : u.partName p = tableNameOf (y.name ++ p.suffix) := by
        rw [Table.partName, hkeep'.name_eq]
        exact String.append_assoc
      rw [← hname]
      exact List.mem_cons_of_mem _ (List.mem_map_of_mem hp)
    have hsame : sameName t.name (tableNameOf (y.name ++ p.suffix)) = true := by
      rw [hkeep.name_eq, Definition.tableName, sameName_tableNameOf]
      exact hsame
    obtain rfl := Table.eq_of_sameName h.tables.apart ht hu List.mem_cons_self hmem hsame
    exact hne ((hkeep.name_iff y).mp hkeep'.name_eq)
  rintro (hclash | hclash)
  · exact hpart hx hy hne hclash
  · exact hpart hy hx hne.symm hclash

/-! ## One rebuild -/

/-- The tables of some indexes were made again, and all others are as they were. -/
structure Remade (ds : List Definition) (db next : Database) : Prop where
  schema_eq : next.schema = db.schema
  made : ∀ d ∈ ds, ∃ t ∈ next.tables, emptyTable? d = .ok t
  others : ∀ t, (∀ d ∈ ds, t.name ≠ d.tableName) → (t ∈ next.tables ↔ t ∈ db.tables)

theorem Renews.exists_rebuild (h : db.Renews xs) (hx : x ∈ xs) :
    ∃ next, db.rebuild x.definition = .ok next ∧ next.Renews (Content.put x.rebuilt xs) ∧
      Remade [x.definition] db next := by
  obtain ⟨t, hmake⟩ := h.makeable x hx
  have hkeeps := emptyTable?_keeps (h.holds.valid x hx) hmake
  obtain ⟨dropped, hdrop⟩ := h.holds.exists_dropTable hx db.catalog
  obtain ⟨tables, rfl, hhold, hleft⟩ := h.holds.dropTable hx hdrop
  have hfree : ∀ n ∈ t.takenNames, ({ db with tables } : Database).isTaken n = false := by
    have hapart : ∀ z ∈ xs.filter (·.name != x.name), sameName z.name x.definition.name = false := by
      intro z hz
      obtain ⟨hz, hne⟩ := List.mem_filter.mp hz
      exact h.holds.name_apart hz hx (bne_iff_ne.mp hne)
    have hclash : ∀ z ∈ xs.filter (·.name != x.name), ¬ z.definition.Clashes x.definition := by
      intro z hz
      obtain ⟨hz, hne⟩ := List.mem_filter.mp hz
      exact h.holds.not_clashes hz hx (bne_iff_ne.mp hne)
    rw [hkeeps.takenNames_eq]
    exact ((h.holds.without hhold).free_iff hapart).mpr ⟨fun n hn => h.isOurs.free hn, hclash⟩
  have hcreate := createTable_eq hmake hfree
  have hrebuild : db.rebuild x.definition = .ok
      { db with tables := tables ++ [t], catalog := db.catalog.resetForRebuild x.definition.name } := by
    unfold Database.rebuild
    have hdrop : db.dropTable x.definition.tableName = .ok { db with tables } := hdrop
    simp only [hdrop, hcreate, lift, bind, Except.bind]
  refine ⟨_, hrebuild, h.put hx ⟨rfl, rfl, rfl, .refl _⟩ (h.holds.rebuild hx hrebuild) rfl, rfl, ?_, fun u hu => ?_⟩
  · simpa using Or.inr hmake
  · have hname : u.name ≠ x.definition.tableName := by simpa using hu
    have hne : u ≠ t := by
      rintro rfl
      exact hname hkeeps.name_eq
    simp [hleft, hne, hname]

/-! ## All that is outdated -/

theorem Renews.foldlM_rebuild (h : db.Renews xs) (hn : (ds.map (·.name)).Nodup)
    (hds : ∀ d ∈ ds, ∃ x ∈ xs, x.definition = d) :
    ∃ next, ds.foldlM Database.rebuild db = .ok next ∧ next.Renews (rebuiltIn ds xs) ∧ Remade ds db next := by
  induction ds generalizing db xs with
  | nil => exact ⟨db, rfl, by simpa [rebuiltIn] using h, rfl, by simp, fun _ _ => Iff.rfl⟩
  | cons d rest ih =>
    rw [List.map_cons, List.nodup_cons] at hn
    obtain ⟨x, hx, rfl⟩ := hds d List.mem_cons_self
    obtain ⟨first, hfirst, hrenews, hremade⟩ := h.exists_rebuild hx
    have hrest : ∀ e ∈ rest, e.name ≠ x.definition.name :=
      fun e he heq => hn.1 (List.mem_map.mpr ⟨e, he, heq⟩)
    obtain ⟨next, hnext, hrenews', hremade'⟩ := ih hrenews hn.2 fun e he => by
      obtain ⟨z, hz, rfl⟩ := hds e (List.mem_cons_of_mem _ he)
      exact ⟨z, Content.mem_put.mpr (Or.inl ⟨hz, hrest _ he⟩), rfl⟩
    refine ⟨next, ?_, ?_, hremade'.schema_eq.trans hremade.schema_eq, ?_, fun t ht => ?_⟩
    · rw [List.foldlM_cons, hfirst]
      exact hnext
    · rwa [← rebuiltIn_cons h.holds.distinct hx hn.1]
    · intro e he
      rcases List.mem_cons.mp he with rfl | he
      · obtain ⟨t, ht, hmake⟩ := hremade.made _ (List.mem_singleton_self _)
        have hname := (emptyTable?_keeps (h.holds.valid x hx) hmake).name_eq
        refine ⟨t, (hremade'.others t fun e he heq => ?_).mpr ht, hmake⟩
        rw [hname] at heq
        exact hrest e he (Table.tableNameOf_injective heq).symm
      · exact hremade'.made e he
    · rw [hremade'.others t fun e he => ht e (List.mem_cons_of_mem _ he)]
      exact hremade.others t fun e he => by
        rw [List.mem_singleton.mp he]
        exact ht _ List.mem_cons_self

theorem Renews.exists_rebuildOutdated (h : db.Renews xs) (hds : db.definitions = .ok ds) :
    ∃ next, db.rebuildOutdated = .ok next ∧ next.Renews (upgraded xs) ∧
      Remade (ds.filter (·.schemaVersion < currentLayout)) db next := by
  rw [h.holds.definitions] at hds
  obtain rfl := Except.ok.inj hds
  obtain ⟨next, hnext, hrenews, hremade⟩ := h.foldlM_rebuild
    (h.holds.sorted_names_nodup.sublist (List.filter_sublist.map _))
    (fun d hd => mem_sorted_iff.mp (List.mem_filter.mp hd).1)
  rw [rebuiltIn_sorted] at hrenews
  refine ⟨next, ?_, hrenews, hremade⟩
  unfold Database.rebuildOutdated
  simp only [h.holds.definitions, bind, Except.bind]
  exact hnext

/-! ## Opening -/

section Opening

variable {settings : ConnectionSettings} {file : FileState} {key? : Option EncryptionKey} {connection : Connection}

/-- Once there is a connection, the layout is made and all that is outdated is rebuilt. -/
theorem Renews.openDatabase_eq (h : db.Renews xs) (hopen : Connection.open? settings file key? = .ok connection) :
    Manager.openDatabase settings file key? db = ({ db with schema := migrated } : Database).rebuildOutdated := by
  have hfound : (if connection.isMemory = true then db else db.reconnected) = db := by
    split
    · rfl
    · exact h.holds.reconnected_eq
  unfold Manager.openDatabase
  simp only [hopen, hfound, h.isOurs.prepare, Except.mapError, bind, Except.bind]

theorem Renews.withSchema (h : db.Renews xs) : ({ db with schema := migrated } : Database).Renews xs :=
  ⟨h.holds.withSchema migrated, Or.inr rfl, h.makeable⟩

theorem Renews.exists_openDatabase (h : db.Renews xs) (hds : db.definitions = .ok ds)
    (hopen : Connection.open? settings file key? = .ok connection) :
    ∃ next, Manager.openDatabase settings file key? db = .ok next ∧ next.Renews (upgraded xs) ∧
      Remade (ds.filter (·.schemaVersion < currentLayout)) { db with schema := migrated } next := by
  obtain ⟨next, hnext, hrest⟩ := h.withSchema.exists_rebuildOutdated hds
  exact ⟨next, (h.openDatabase_eq hopen).trans hnext, hrest⟩

theorem rebuildOutdated_of_current (hds : db.definitions = .ok ds)
    (hcurrent : ∀ d ∈ ds, currentLayout ≤ d.schemaVersion) : db.rebuildOutdated = .ok db := by
  have hnone : ds.filter (·.schemaVersion < currentLayout) = [] := by simpa using hcurrent
  unfold rebuildOutdated
  simp only [hds, hnone, bind, Except.bind]
  rfl

theorem Renews.openDatabase_again (h : db.Renews xs) (hschema : db.schema = migrated)
    (hds : db.definitions = .ok ds) (hcurrent : ∀ d ∈ ds, currentLayout ≤ d.schemaVersion)
    (hopen : Connection.open? settings file key? = .ok connection) :
    Manager.openDatabase settings file key? db = .ok db := by
  have hsame : ({ db with schema := migrated } : Database) = db := by rw [← hschema]
  rw [h.openDatabase_eq hopen, hsame]
  exact rebuildOutdated_of_current hds hcurrent

end Opening

/-! ## What is left and what is emptied -/

/-- The database was opened: definitions of an older layout begin anew in the current one and have the tables that they
would have as new indexes, and all others have the tables that they had. -/
structure Upgrades (db next : Database) (ds : List Definition) : Prop where
  definitions_eq : next.definitions = .ok (ds.map Definition.upgraded)
  kept : ∀ d ∈ ds, currentLayout ≤ d.schemaVersion →
    next.table? d.tableName = db.table? d.tableName ∧ next.dump d.name = db.dump d.name
  emptied : ∀ d ∈ ds, d.schemaVersion < currentLayout →
    (∃ t, emptyTable? d = .ok t ∧ next.table? d.tableName = .ok t) ∧ next.dump d.name = .ok (some [])

theorem map_definition_upgraded (xs : List Content) :
    (upgraded xs).map (·.definition) = (xs.map (·.definition)).map Definition.upgraded := by
  unfold upgraded
  rw [List.map_map, List.map_map]
  refine List.map_congr_left fun x _ => ?_
  rw [Function.comp_apply, Function.comp_apply, Definition.upgraded]
  split <;> rfl

theorem Holds.table?_of_mem (h : db.Holds xs) (hx : x ∈ xs) (ht : t ∈ db.tables)
    (hname : t.name = x.definition.tableName) : db.table? x.definition.tableName = .ok t := by
  obtain ⟨u, hu, hkeep, htable⟩ := h.table? hx
  rw [htable, Table.eq_of_name h.tables.apart hu ht (hkeep.name_eq.trans hname.symm)]

theorem Renews.upgrades (h : db.Renews xs) (hds : db.definitions = .ok ds) (hnext : next.Holds (upgraded xs))
    (hremade : Remade (ds.filter (·.schemaVersion < currentLayout)) db next) : Upgrades db next ds := by
  rw [h.holds.definitions] at hds
  obtain rfl := Except.ok.inj hds
  refine ⟨?_, fun d hd hcurrent => ?_, fun d hd hold => ?_⟩
  · rw [hnext.definitions, map_definition_upgraded, Catalog.map_upgraded_sorted]
  · obtain ⟨x, hx, rfl⟩ := mem_sorted_iff.mp hd
    have hx' : x ∈ upgraded xs := List.mem_map.mpr ⟨x, hx, if_neg (Int.not_lt.mpr hcurrent)⟩
    obtain ⟨t, ht, hkeep, htable⟩ := h.holds.table? hx
    have ht' : t ∈ next.tables := by
      refine (hremade.others t fun e he heq => ?_).mpr ht
      obtain ⟨he, hold⟩ := List.mem_filter.mp he
      obtain ⟨z, hz, rfl⟩ := mem_sorted_iff.mp he
      obtain rfl := Content.eq_of_name_eq h.holds.distinct hx hz ((hkeep.name_iff z).mp heq)
      exact Int.not_lt.mpr hcurrent (of_decide_eq_true hold)
    rw [htable, hnext.table?_of_mem hx' ht' hkeep.name_eq]
    exact ⟨rfl, (hnext.dump hx').trans (h.holds.dump hx).symm⟩
  · obtain ⟨x, hx, rfl⟩ := mem_sorted_iff.mp hd
    have hx' : x.rebuilt ∈ upgraded xs := List.mem_map.mpr ⟨x, hx, if_pos hold⟩
    obtain ⟨t, ht, hmake⟩ := hremade.made x.definition (List.mem_filter.mpr ⟨hd, decide_eq_true hold⟩)
    have hname := (emptyTable?_keeps (h.holds.valid x hx) hmake).name_eq
    have htable := hnext.table?_of_mem hx' ht hname
    exact ⟨⟨t, hmake, htable⟩, hnext.dump hx'⟩

/-! ## Databases that can be renewed -/

theorem ensure_cases {start : Int} (hok : db.ensure s start = .ok next) :
    next = db ∨ next.schema = db.schema ∧ ∃ t, emptyTable? (s.definition start) = .ok t := by
  obtain ⟨existing, _, hok⟩ := ok_of_bind hok
  split at hok
  · split at hok
    · exact Or.inl (Except.ok.inj hok).symm
    · cases hok
  · split at hok
    · cases hok
    · obtain ⟨t, ht, hok⟩ := ok_of_bind hok
      split at hok
      · cases hok
      · rw [← Except.ok.inj hok]
        exact Or.inr ⟨rfl, t, ht⟩

theorem schema_of_dropTable (hok : db.dropTable name = .ok next) : next.schema = db.schema := by
  unfold dropTable at hok
  split at hok
  · cases hok
  · split at hok
    · obtain ⟨_, _, hok⟩ := ok_of_bind hok
      rw [← Except.ok.inj hok]
    · rw [← Except.ok.inj hok]

theorem schema_of_deleteIndex (hok : db.deleteIndex name = .ok next) : next.schema = db.schema := by
  unfold Database.deleteIndex at hok
  split at hok
  · cases hok
  · have hschema := schema_of_dropTable (lift_ok hok)
    exact hschema

/-- The database holds contents whose tables can be made again. -/
def Renewable (db : Database) : Prop := ∃ xs, db.Renews xs

namespace Renewable

theorem ensure (h : db.Renewable) (hs : s.Accepted) {start : Int} (hok : db.ensure s start = .ok next) :
    next.Renewable := by
  obtain ⟨xs, hrenews⟩ := h
  have hvalid := IndexSpec.definition_valid hs.validate_eq hs.ascending hs.tokenizer start
  rcases ensure_cases hok with rfl | ⟨hschema, hmake⟩
  · exact ⟨xs, hrenews⟩
  rcases hrenews.holds.ensure hvalid hok with ⟨rfl, _⟩ | hadded
  · exact ⟨xs, hrenews⟩
  · refine ⟨_, hadded.holds, hrenews.isOurs.congr hschema, fun x hx => ?_⟩
    rcases List.mem_append.mp hx with hx | hx
    · exact hrenews.makeable x hx
    · rw [List.mem_singleton.mp hx]
      exact hmake

theorem deleteIndex (h : db.Renewable) (hok : db.deleteIndex name = .ok next) : next.Renewable := by
  obtain ⟨xs, hrenews⟩ := h
  refine ⟨_, (hrenews.holds.deleteIndex hok).holds, hrenews.isOurs.congr (schema_of_deleteIndex hok), ?_⟩
  exact fun x hx => hrenews.makeable x (List.mem_filter.mp hx).1

theorem openDatabase (h : db.Renewable) {settings : ConnectionSettings} {file : FileState}
    {key? : Option EncryptionKey} (hok : Manager.openDatabase settings file key? db = .ok next) : next.Renewable := by
  obtain ⟨xs, hrenews⟩ := h
  obtain ⟨connection, hopen, _⟩ := ok_of_bind hok
  obtain ⟨opened, hopened, hnext, _⟩ :=
    hrenews.exists_openDatabase hrenews.holds.definitions (ok_of_mapError hopen)
  rw [hok] at hopened
  obtain rfl := Except.ok.inj hopened
  exact ⟨_, hnext⟩

theorem setSchemaVersion (h : db.Renewable) {version : Int}
    (hok : db.overwriteCatalog name .schemaVersion (.int version) = .ok next) : next.Renewable := by
  obtain ⟨xs, hrenews⟩ := h
  by_cases hthere : ∃ x ∈ xs, x.name = name
  · obtain ⟨x, hx, rfl⟩ := hthere
    have hholds := hrenews.holds.setSchemaVersion hx version hok
    obtain ⟨_, _, hok⟩ := ok_of_bind hok
    have hcontinues : x.definition.Continues { x.definition with schemaVersion := version } :=
      ⟨rfl, rfl, rfl, .refl _⟩
    refine ⟨_, hrenews.put (y := ⟨_, x.rows⟩) hx hcontinues hholds ?_⟩
    rw [← Except.ok.inj hok]
  · rw [hrenews.holds.setSchemaVersion_of_ne (fun x hx hname => hthere ⟨x, hx, hname⟩) version hok]
    exact ⟨xs, hrenews⟩

theorem applyBatch (h : db.Renewable) {since : Int} {page : Page}
    (hok : db.applyBatch name since page.changes page.checkpoint = .ok (.applied next)) : next.Renewable := by
  obtain ⟨xs, hrenews⟩ := h
  obtain ⟨outcome, houtcome, happlied⟩ := hrenews.holds.applyBatch_cases name since page
  obtain ⟨x, hx, rfl, rfl, _⟩ := happlied next (Except.ok.inj (houtcome.symm.trans hok))
  obtain ⟨last, hlast, hholds, hschema⟩ := hrenews.holds.applyBatch_applied hx page
  rw [hok] at hlast
  obtain rfl := BatchOutcome.applied.inj (Except.ok.inj hlast)
  exact ⟨_, hrenews.put hx (Content.continues_apply x page) hholds hschema⟩

theorem kept : Kept Renewable fun _ => True where
  ensure h hs hok := h.ensure hs hok
  deleteIndex _ h hok := h.deleteIndex hok
  openDatabase h hok := h.openDatabase hok
  setSchemaVersion h hok := h.setSchemaVersion hok
  applyBatch h hok := h.applyBatch hok

end Renewable

end Database

theorem World.renewable_run (events : List Event) : (run {} events).database.Renewable :=
  run_keeps Database.Renewable.kept ⟨[], .empty⟩ fun e _ => e.deletesOnly_true

end DocIndex
