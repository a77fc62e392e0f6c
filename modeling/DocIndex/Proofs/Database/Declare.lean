import DocIndex.Manager
import DocIndex.Proofs.Database.Batch

/-! # Declaring, deleting and rebuilding indexes

Creating an index adds an empty content, deleting takes one away, and rebuilding empties one and moves its
checkpoint back to the beginning. What fails leaves the database as it was.
-/

namespace DocIndex

/-- An index without rows that has caught up with nothing, in the current layout. -/
def Content.rebuilt (x : Content) : Content :=
  { definition := { x.definition with lastSequence := 0, schemaVersion := currentLayout }, rows := [] }

namespace Database

variable {db next : Database} {x y : Content} {xs : List Content} {d : Definition}

theorem emptyTable?_keeps {t : Table} (hd : d.Valid) (h : emptyTable? d = .ok t) : t.Keeps ⟨d, []⟩ := by
  unfold emptyTable? at h
  cases hk : d.kind with
  | value =>
    simp only [hk] at h
    split at h
    · simp at h
    · obtain rfl := Except.ok.inj h
      exact ⟨rfl, rfl, rfl, rfl, rfl, rfl, by rw [hk]; trivial, by rw [hk]; rfl⟩
  | text =>
    obtain ⟨setting, hs, hvalid⟩ := hd.text hk
    have hget : (d.settings.get? tokenizeKey).getD defaultTokenizer = setting := by
      rw [hs]
      rfl
    simp only [hk] at h
    obtain ⟨form, hform, h⟩ := ok_of_bind h
    have hkeeps : form.KeepsTexts ∧ form.keepsSizes = true := by
      unfold fullTextForm? at hform
      rw [hget] at hform
      obtain ⟨_, _, hform⟩ := ok_of_bind hform
      have hread := TableArgument.readAll?_tokenizeOption hvalid
      unfold TableArgument.tokenizeOption at hread
      simp only [hread, Option.bind_some] at hform
      split at hform
      · rename_i found hfound
        obtain rfl := Except.ok.inj hform
        exact FullTextForm.keepsTexts_of_tokenize hfound
      · simp at hform
    obtain rfl := Except.ok.inj h
    refine ⟨rfl, rfl, by rw [Definition.lookups, hk], rfl, rfl, rfl, by rw [hk]; exact hkeeps.1, ?_⟩
    change form.parts = d.kind.parts
    rw [FullTextForm.parts, hkeeps.1.1, hkeeps.2, hk]
    rfl

theorem createTable_ok (hd : d.Valid) (h : db.createTable d = .ok next)
    (howned : ∀ u ∈ db.tables, u.names = u.allNames) :
    ∃ t : Table, t.Keeps ⟨d, []⟩ ∧ (∀ u ∈ db.tables, u.Apart t) ∧
      next = { db with tables := db.tables ++ [t] } := by
  unfold createTable at h
  obtain ⟨t, ht, h⟩ := ok_of_bind h
  have hkeeps := emptyTable?_keeps hd ht
  cases hfree : t.takenNames.find? db.isTaken with
  | some name => simp [hfree] at h
  | none =>
    simp only [hfree] at h
    refine ⟨t, hkeeps, ?_, (Except.ok.inj h).symm⟩
    intro u hu n hn m hm
    rw [← hkeeps.names_eq] at hm
    rw [← howned u hu] at hn
    have htaken := List.find?_eq_none.mp hfree m (List.mem_append_left _ hm)
    unfold isTaken at htaken
    rw [Bool.or_eq_true, not_or, List.any_eq_true] at htaken
    by_contra hsame
    exact htaken.2 ⟨u, hu, List.any_eq_true.mpr ⟨n, List.mem_append_left _ hn, by simpa using hsame⟩⟩

theorem Holds.names_eq (h : db.Holds xs) : ∀ u ∈ db.tables, u.names = u.allNames := by
  intro u hu
  obtain ⟨z, _, hk⟩ := h.tables.owned u hu
  exact hk.names_eq

/-! ## Creating -/

/-- An index without rows was added. No other has its name, and it is not a second text index. -/
structure Added (db next : Database) (xs : List Content) (s : IndexSpec) (start : Int) : Prop where
  new : ∀ x ∈ xs, x.name ≠ s.name
  alone : s.kind = .text → ∀ x ∈ xs, x.definition.kind ≠ .text
  tables : ∃ t : Table, t.name = tableNameOf s.name ∧ next.tables = db.tables ++ [t]
  holds : next.Holds (xs ++ [⟨s.definition start, []⟩])

theorem kind_ne_text_of_conflict? {definitions : List Definition} {s : IndexSpec} (h : conflict? definitions s = none)
    (hkind : s.kind = .text) {d : Definition} (hd : d ∈ definitions) : d.kind ≠ .text := by
  intro htext
  unfold conflict? at h
  split at h
  · cases h
  · simp only [hkind, Option.map_eq_none_iff, List.find?_eq_none] at h
    refine h d hd ?_
    rw [htext]
    rfl

theorem Holds.insert (h : db.Holds xs) {y : Content} {t : Table} (hvalid : y.definition.Valid)
    (hnew : ∀ x ∈ xs, x.name ≠ y.name) (hkeeps : t.Keeps y) (hfree : ∀ u ∈ db.tables, u.Apart t) :
    ({ db with catalog := db.catalog.insert y.definition, tables := db.tables ++ [t] } : Database).Holds
      (xs ++ [y]) := by
  refine ⟨?_, ?_, ?_, h.tables.append hkeeps hfree⟩
  · rw [List.map_append]
    change db.catalog.insert y.definition = _
    rw [h.catalog_eq, Catalog.insert_ofDefinitions]
    rfl
  · rw [List.map_append]
    refine h.distinct.append (List.nodup_singleton _) ?_
    intro name hname hadded
    obtain ⟨x, hx, rfl⟩ := List.mem_map.mp hname
    exact hnew x hx (List.mem_singleton.mp hadded)
  · intro x hx
    rcases List.mem_append.mp hx with hx | hx
    · exact h.valid x hx
    · rw [List.mem_singleton.mp hx]
      exact hvalid

/-- A valid request that succeeds finds its index there, or adds it. -/
theorem Holds.ensure (h : db.Holds xs) {s : IndexSpec} {start : Int} (hs : (s.definition start).Valid)
    (hok : db.ensure s start = .ok next) :
    (next = db ∧ ∃ x ∈ xs, x.name = s.name) ∨ db.Added next xs s start := by
  unfold Database.ensure at hok
  simp only [h.definitions, bind, Except.bind] at hok
  have hperm := Catalog.sorted_perm (xs.map (·.definition))
  have hmem : ∀ x ∈ xs, x.definition ∈ Catalog.sorted (xs.map (·.definition)) :=
    fun x hx => hperm.mem_iff.mpr (List.mem_map_of_mem hx)
  cases hfind : (Catalog.sorted (xs.map (·.definition))).find? (·.name == s.name) with
  | some d =>
    left
    simp only [hfind] at hok
    split at hok
    · refine ⟨(Except.ok.inj hok).symm, ?_⟩
      obtain ⟨x, hx, rfl⟩ := List.mem_map.mp (hperm.mem_iff.mp (List.mem_of_find?_eq_some hfind))
      exact ⟨x, hx, by simpa [Content.name] using List.find?_some hfind⟩
    · simp at hok
  | none =>
    right
    have hnew : ∀ x ∈ xs, x.name ≠ s.name := by
      intro x hx
      simpa [Content.name] using List.find?_eq_none.mp hfind x.definition (hmem x hx)
    simp only [hfind] at hok
    cases hconflict : conflict? (Catalog.sorted (xs.map (·.definition))) s with
    | some c => simp [hconflict] at hok
    | none =>
      simp only [hconflict] at hok
      obtain ⟨t, hkeeps, hfree, rfl⟩ := createTable_ok hs hok h.names_eq
      refine ⟨hnew, ?_, ⟨t, hkeeps.name_eq, rfl⟩, ?_⟩
      · exact fun hkind x hx => kind_ne_text_of_conflict? hconflict hkind (hmem x hx)
      · exact h.insert (y := ⟨s.definition start, []⟩) hs hnew hkeeps hfree

/-! ## Deleting -/

theorem lift_ok {α : Type} {a : Except SqlFault α} {b : α} (h : lift a = .ok b) : a = .ok b := by
  cases a with
  | ok c => exact congrArg Except.ok (Except.ok.inj h)
  | error e => simp [lift] at h

theorem eq_sql_of_lift {α : Type} {a : Except SqlFault α} {e : QueryError} (h : lift a = .error e) :
    ∃ fault, e = .sql fault := by
  cases a with
  | ok c => simp [lift] at h
  | error fault => exact ⟨fault, (Except.error.inj h).symm⟩

theorem Holds.find?_sameName (h : db.Holds xs) (hx : x ∈ xs) :
    ∃ t ∈ db.tables, t.Keeps x ∧ db.tables.find? (sameName ·.name x.definition.tableName) = some t := by
  obtain ⟨t, ht, hkeep, _⟩ := h.tables.find? hx
  refine ⟨t, ht, hkeep, ?_⟩
  cases hf : db.tables.find? (sameName ·.name x.definition.tableName) with
  | none =>
    refine absurd ?_ (List.find?_eq_none.mp hf t ht)
    rw [hkeep.name_eq]
    exact sameName_refl _
  | some u =>
    have hsame := List.find?_some hf
    rw [← hkeep.name_eq] at hsame
    rw [Table.eq_of_sameName h.tables.apart (List.mem_of_find?_eq_some hf) ht List.mem_cons_self
      List.mem_cons_self hsame]

theorem Holds.dropTable (h : db.Holds xs) (hx : x ∈ xs) {c : Catalog}
    (hok : ({ db with catalog := c } : Database).dropTable x.definition.tableName = .ok next) :
    ∃ tables, next = { db with catalog := c, tables } ∧ Table.Hold tables (xs.filter (·.name != x.name)) ∧
      ∀ u, u ∈ tables ↔ u ∈ db.tables ∧ u.name ≠ x.definition.tableName := by
  obtain ⟨t, ht, hkeep, hfind⟩ := h.find?_sameName hx
  unfold Database.dropTable at hok
  split at hok
  · simp at hok
  · simp only [hfind, hkeep.checkOpen, bind, Except.bind] at hok
    refine ⟨_, (Except.ok.inj hok).symm, h.tables.remove ht hkeep, fun u => ?_⟩
    rw [List.mem_filter, and_congr_right_iff, ← hkeep.name_eq]
    exact fun hu => Table.survives_iff h.tables.apart hu ht

theorem Holds.without (h : db.Holds xs) {name : String} {tables : List Table}
    (hhold : Table.Hold tables (xs.filter (·.name != name))) :
    ({ db with catalog := db.catalog.erase name, tables } : Database).Holds (xs.filter (·.name != name)) := by
  refine ⟨?_, h.distinct.sublist (List.filter_sublist.map _), fun z hz => h.valid z (List.mem_filter.mp hz).1, hhold⟩
  rw [h.catalog_eq, Catalog.erase_ofDefinitions, List.filter_map]
  rfl

/-- An index was taken away with its table, and nothing else. -/
structure Removed (db next : Database) (xs : List Content) (name : String) : Prop where
  there : ∃ x ∈ xs, x.name = name
  tables : ∀ t, t ∈ next.tables ↔ t ∈ db.tables ∧ t.name ≠ tableNameOf name
  holds : next.Holds (xs.filter (·.name != name))

theorem Holds.deleteIndex (h : db.Holds xs) {name : String} (hok : db.deleteIndex name = .ok next) :
    db.Removed next xs name := by
  unfold Database.deleteIndex at hok
  split at hok
  · simp at hok
  · rename_i hthere
    rw [Bool.or_eq_true, not_or] at hthere
    have hcontains : db.catalog.contains name = true := by simpa using hthere.2
    rw [h.catalog_eq, Catalog.contains_ofDefinitions h.storable] at hcontains
    obtain ⟨d, hd, hname⟩ := hcontains
    obtain ⟨x, hx, rfl⟩ := List.mem_map.mp hd
    obtain rfl : x.name = name := hname
    obtain ⟨tables, rfl, hhold, hleft⟩ := h.dropTable hx (lift_ok hok)
    exact ⟨⟨x, hx, rfl⟩, hleft, h.without hhold⟩

theorem isNameChar_of_mem {name : String} (h : isIndexName name = true) {c : Char} (hc : c ∈ name.toList) :
    isNameChar c = true := by
  unfold isIndexName at h
  split at h
  · cases h
  · rename_i first rest hchars
    rw [Bool.and_eq_true, List.all_eq_true] at h
    rw [hchars] at hc
    rcases List.mem_cons.mp hc with rfl | hc
    · have hstart := h.1
      simp only [isNameStart, Bool.or_eq_true] at hstart
      simp only [isNameChar, Char.isAlphanum, Bool.or_eq_true]
      exact hstart.imp_left Or.inl
    · exact h.2 c hc

theorem null_not_mem_tableNameOf {name : String} (h : isIndexName name = true) :
    '\x00' ∉ (tableNameOf name).toList := by
  have hname : '\x00' ∉ name.toList := fun hmem => absurd (isNameChar_of_mem h hmem) (by decide)
  have hfront : '\x00' ∉ ("_sofa_query_index_" : String).toList := by decide +kernel
  unfold tableNameOf
  rw [String.toList_append]
  simp only [List.mem_append, not_or]
  exact ⟨hfront, hname⟩

theorem Holds.exists_dropTable (h : db.Holds xs) (hx : x ∈ xs) (c : Catalog) :
    ∃ next, ({ db with catalog := c } : Database).dropTable x.definition.tableName = .ok next := by
  have hnull : x.definition.tableName.toList.contains '\x00' = false := by
    simpa [Definition.tableName] using null_not_mem_tableNameOf (h.valid x hx).name
  obtain ⟨t, _, hkeep, hfind⟩ := h.find?_sameName hx
  unfold Database.dropTable
  simp only [hnull, hfind, hkeep.checkOpen, bind, Except.bind, Bool.false_eq_true, if_false]
  exact ⟨_, rfl⟩

theorem Holds.exists_deleteIndex (h : db.Holds xs) (hx : x ∈ xs) : ∃ next, db.deleteIndex x.name = .ok next := by
  have hname : isIndexName x.name = true := (h.valid x hx).name
  have hthere : db.catalog.contains x.name = true := by
    rw [h.catalog_eq, Catalog.contains_ofDefinitions h.storable]
    exact ⟨x.definition, List.mem_map_of_mem hx, rfl⟩
  obtain ⟨next, hdrop⟩ := h.exists_dropTable hx (db.catalog.erase x.name)
  have hdrop : ({ db with catalog := db.catalog.erase x.name } : Database).dropTable (tableNameOf x.name) = .ok next :=
    hdrop
  refine ⟨next, ?_⟩
  unfold Database.deleteIndex
  simp only [hname, hthere, hdrop, lift, Bool.not_true, Bool.or_self, Bool.false_eq_true, if_false]

/-! ## Rebuilding -/

theorem Holds.rebuild (h : db.Holds xs) (hx : x ∈ xs) (hok : db.rebuild x.definition = .ok next) :
    next.Holds (Content.put x.rebuilt xs) := by
  unfold Database.rebuild at hok
  obtain ⟨dropped, hdrop, hok⟩ := ok_of_bind hok
  obtain ⟨tables, rfl, hhold, _⟩ := h.dropTable hx (lift_ok hdrop)
  obtain ⟨fresh, hcreate, hok⟩ := ok_of_bind hok
  have hnames : ∀ u ∈ tables, u.names = u.allNames := by
    intro u hu
    obtain ⟨z, _, hk⟩ := hhold.owned u hu
    exact hk.names_eq
  obtain ⟨t, hkeeps, hfree, rfl⟩ := createTable_ok (h.valid x hx) hcreate hnames
  obtain rfl := (Except.ok.inj hok).symm
  have hempty : ({ db with tables := tables ++ [t] } : Database).Holds (Content.put ⟨x.definition, []⟩ xs) := by
    refine ⟨?_, ?_, ?_, (hhold.append hkeeps hfree).congr ?_⟩
    · rw [h.map_definition_put_rows hx]
      exact h.catalog_eq
    · rw [Content.map_name_put]
      exact h.distinct
    · intro z hz
      rcases Content.mem_put.mp hz with ⟨hz, _⟩ | ⟨rfl, _⟩
      · exact h.valid z hz
      · exact h.valid x hx
    · intro z
      rw [Content.mem_put, List.mem_append, List.mem_filter, List.mem_singleton, bne_iff_ne]
      refine or_congr Iff.rfl ?_
      exact ⟨fun heq => ⟨heq, x, hx, rfl⟩, fun hz => hz.1⟩
  have hreset := hempty.withCatalog
    (f := fun d => { d with lastSequence := 0, schemaVersion := currentLayout })
    (Content.mem_put_self hx rfl) rfl rfl rfl rfl
  rw [← Catalog.resetForRebuild_ofDefinitions, ← hempty.catalog_eq, Content.put_put] at hreset
  · exact hreset
  · rfl

def rebuiltIn (ds : List Definition) (xs : List Content) : List Content :=
  xs.map fun x => if x.definition ∈ ds then x.rebuilt else x

theorem rebuiltIn_cons (hn : (xs.map Content.name).Nodup) (hx : x ∈ xs) {rest : List Definition}
    (hrest : x.definition.name ∉ rest.map (·.name)) :
    rebuiltIn rest (Content.put x.rebuilt xs) = rebuiltIn (x.definition :: rest) xs := by
  unfold rebuiltIn Content.put
  rw [List.map_map]
  refine List.map_congr_left fun z hz => ?_
  rw [Function.comp_apply]
  by_cases hname : z.name = x.name
  · obtain rfl := Content.eq_of_name_eq hn hz hx hname
    have hnot : z.rebuilt.definition ∉ rest := fun hmem => hrest (List.mem_map.mpr ⟨_, hmem, rfl⟩)
    rw [if_pos (show z.name = z.rebuilt.name from rfl), if_neg hnot, if_pos List.mem_cons_self]
  · have hne : z.definition ≠ x.definition := fun heq => hname (congrArg Definition.name heq)
    have hmem : z.definition ∈ x.definition :: rest ↔ z.definition ∈ rest := by simp [hne]
    rw [if_neg (show ¬ z.name = x.rebuilt.name from hname)]
    simp only [hmem]

theorem Holds.foldlM_rebuild (h : db.Holds xs) {ds : List Definition} (hn : (ds.map (·.name)).Nodup)
    (hds : ∀ d ∈ ds, ∃ x ∈ xs, x.definition = d) (hok : ds.foldlM Database.rebuild db = .ok next) :
    next.Holds (rebuiltIn ds xs) := by
  induction ds generalizing db xs with
  | nil =>
    obtain rfl := Except.ok.inj hok
    simpa [rebuiltIn] using h
  | cons d rest ih =>
    rw [List.map_cons, List.nodup_cons] at hn
    obtain ⟨x, hx, rfl⟩ := hds d List.mem_cons_self
    rw [List.foldlM_cons] at hok
    obtain ⟨first, hfirst, hok⟩ := ok_of_bind hok
    rw [← rebuiltIn_cons h.distinct hx hn.1]
    refine ih (h.rebuild hx hfirst) hn.2 ?_ hok
    intro e he
    obtain ⟨z, hz, rfl⟩ := hds e (List.mem_cons_of_mem _ he)
    refine ⟨z, Content.mem_put.mpr (Or.inl ⟨hz, ?_⟩), rfl⟩
    intro hname
    exact hn.1 (List.mem_map.mpr ⟨z.definition, he, hname⟩)

/-- Contents of an older layout are rebuilt, all others stay. -/
def upgraded (xs : List Content) : List Content :=
  xs.map fun x => if x.definition.schemaVersion < currentLayout then x.rebuilt else x

theorem rebuiltIn_sorted (xs : List Content) :
    rebuiltIn ((Catalog.sorted (xs.map (·.definition))).filter (·.schemaVersion < currentLayout)) xs =
      upgraded xs := by
  refine List.map_congr_left fun x hx => ?_
  have hmem : x.definition ∈ Catalog.sorted (xs.map (·.definition)) :=
    (Catalog.sorted_perm _).mem_iff.mpr (List.mem_map_of_mem hx)
  simp only [List.mem_filter, hmem, true_and, decide_eq_true_eq]

theorem Holds.sorted_names_nodup (h : db.Holds xs) :
    ((Catalog.sorted (xs.map (·.definition))).map (·.name)).Nodup :=
  ((Catalog.sorted_perm _).map _).nodup_iff.mpr h.names_nodup

theorem mem_sorted_iff : d ∈ Catalog.sorted (xs.map (·.definition)) ↔ ∃ x ∈ xs, x.definition = d := by
  rw [(Catalog.sorted_perm _).mem_iff, List.mem_map]

theorem Holds.rebuildOutdated (h : db.Holds xs) (hok : db.rebuildOutdated = .ok next) :
    next.Holds (upgraded xs) := by
  unfold Database.rebuildOutdated at hok
  simp only [h.definitions, bind, Except.bind] at hok
  rw [← rebuiltIn_sorted]
  refine h.foldlM_rebuild (h.sorted_names_nodup.sublist (List.filter_sublist.map _)) (fun d hd => ?_) hok
  exact mem_sorted_iff.mp (List.mem_filter.mp hd).1

theorem Holds.withSchema (h : db.Holds xs) (schema : Schema) : ({ db with schema } : Database).Holds xs :=
  ⟨h.catalog_eq, h.distinct, h.valid, h.tables⟩

theorem Holds.reconnected_eq (h : db.Holds xs) : db.reconnected = db := by
  have hsame : db.tables.map Table.reconnected = db.tables := by
    conv_rhs => rw [← List.map_id db.tables]
    refine List.map_congr_left fun t ht => ?_
    obtain ⟨x, _, hk⟩ := h.tables.owned t ht
    exact hk.reconnected_eq
  unfold Database.reconnected
  rw [hsame]

theorem Holds.prepare (h : db.Holds xs) (hok : db.prepare = .ok next) : next.Holds xs := by
  unfold Database.prepare at hok
  split at hok
  · rw [← Except.ok.inj hok]
    exact h.withSchema _
  · simp at hok

theorem Holds.openDatabase (h : db.Holds xs) {settings : ConnectionSettings} {file : FileState}
    {key? : Option EncryptionKey} (hok : Manager.openDatabase settings file key? db = .ok next) :
    next.Holds (upgraded xs) := by
  unfold Manager.openDatabase at hok
  obtain ⟨connection, _, hok⟩ := ok_of_bind hok
  have hfound : (if connection.isMemory = true then db else db.reconnected).Holds xs := by
    split
    · exact h
    · rw [h.reconnected_eq]
      exact h
  obtain ⟨prepared, hprepare, hok⟩ := ok_of_bind hok
  exact (hfound.prepare (ok_of_mapError hprepare)).rebuildOutdated hok

theorem Holds.setSchemaVersion (h : db.Holds xs) (hx : x ∈ xs) (version : Int)
    (hok : db.overwriteCatalog x.name .schemaVersion (.int version) = .ok next) :
    next.Holds (Content.put ⟨{ x.definition with schemaVersion := version }, x.rows⟩ xs) := by
  have hholds := h.withCatalog (f := fun d => { d with schemaVersion := version }) hx rfl rfl rfl rfl
  unfold Database.overwriteCatalog at hok
  rw [h.catalog_eq, Catalog.setSchemaVersion_ofDefinitions] at hok
  obtain rfl := Except.ok.inj hok
  exact hholds

theorem Holds.setSchemaVersion_of_ne (h : db.Holds xs) {name : String} (hname : ∀ x ∈ xs, x.name ≠ name)
    (version : Int) (hok : db.overwriteCatalog name .schemaVersion (.int version) = .ok next) : next = db := by
  unfold Database.overwriteCatalog at hok
  rw [h.catalog_eq, Catalog.setSchemaVersion_ofDefinitions] at hok
  have hsame : Catalog.change name (fun d => { d with schemaVersion := version }) (xs.map (·.definition)) =
      xs.map (·.definition) := by
    conv_rhs => rw [← List.map_id (xs.map (·.definition))]
    refine List.map_congr_left fun d hd => ?_
    obtain ⟨x, hx, rfl⟩ := List.mem_map.mp hd
    exact if_neg (hname x hx)
  rw [hsame, ← h.catalog_eq] at hok
  exact (Except.ok.inj hok).symm

end Database

end DocIndex
