import DocIndex.Proofs.Database.Declare
import DocIndex.Proofs.Index.Bare

/-! # Orderly databases

The tables of an orderly database are those of its definitions, all of which are valid and no two of which have names
that differ only by case. At most one is a text index. Whatever is done to such a database leaves it orderly, and a
declaration or a deletion leaves all other indexes as they were.
-/

namespace DocIndex

/-- What stays of a definition as long as it is there: its kind and its fields. -/
def Definition.shape (d : Definition) : IndexKind × List String := (d.kind, d.paths)

theorem Definition.shape_of_bare {d e : Definition} (h : e.bare = d.bare) : e.shape = d.shape := by
  have hkind : e.bare.kind = d.bare.kind := congrArg Definition.kind h
  have hpaths : e.paths = d.paths := by rw [← paths_bare, h, paths_bare]
  exact congrArg₂ Prod.mk hkind hpaths

/-- At most one index is a text index, and its fields are no identifiers. -/
structure Tidy (shapes : List (IndexKind × List String)) : Prop where
  single : shapes.Pairwise fun a b => a.1 ≠ .text ∨ b.1 ≠ .text
  fields : ∀ s ∈ shapes, s.1 = .text → ∀ path ∈ s.2, isBuiltin path = false

theorem Tidy.sublist {shapes later : List (IndexKind × List String)} (h : Tidy shapes) (hl : later.Sublist shapes) :
    Tidy later :=
  ⟨h.single.sublist hl, fun s hs => h.fields s (hl.mem hs)⟩

theorem Tidy.append {shapes : List (IndexKind × List String)} {s : IndexKind × List String} (h : Tidy shapes)
    (halone : s.1 = .text → ∀ t ∈ shapes, t.1 ≠ .text) (hfields : s.1 = .text → ∀ path ∈ s.2, isBuiltin path = false) :
    Tidy (shapes ++ [s]) := by
  refine ⟨?_, ?_⟩
  · rw [List.pairwise_append]
    refine ⟨h.single, List.pairwise_singleton _ _, ?_⟩
    intro t ht u hu
    rw [List.mem_singleton.mp hu]
    by_cases hs : s.1 = .text
    · exact Or.inl (halone hs t ht)
    · exact Or.inr hs
  · intro t ht
    rcases List.mem_append.mp ht with ht | ht
    · exact h.fields t ht
    · rw [List.mem_singleton.mp ht]
      exact hfields

/-- A request that a manager accepts: it passes its check, and its settings are in order and name a tokenizer if one is
needed. -/
structure IndexSpec.Accepted (s : IndexSpec) : Prop where
  validate_eq : s.validate = .ok ()
  ascending : s.settings.Ascending
  tokenizer : s.kind = .text → (s.settings.get? tokenizeKey).isSome

theorem IndexSpec.Accepted.withDefaultTokenizer {s : IndexSpec} (hs : s.settings.Ascending) (tokenizer : String)
    (h : (s.withDefaultTokenizer tokenizer).validate = .ok ()) : (s.withDefaultTokenizer tokenizer).Accepted := by
  refine ⟨h, ?_, withDefaultTokenizer_get? s tokenizer⟩
  unfold IndexSpec.withDefaultTokenizer
  split
  · exact hs.insert _ _
  · exact hs

namespace Database

variable {db next : Database} {x y : Content} {xs : List Content} {s : IndexSpec} {name : String}

/-- A database that holds the contents of valid indexes, at most one of which is a text index. -/
def Orderly (db : Database) : Prop := ∃ xs, db.Holds xs ∧ Tidy (xs.map (·.definition.shape))

namespace Orderly

theorem empty : Orderly {} := ⟨[], Holds.empty, .nil, by simp⟩

theorem of_shapes {ys : List Content} (ht : Tidy (xs.map (·.definition.shape))) (h : next.Holds ys)
    (hsame : ys.map (·.definition.shape) = xs.map (·.definition.shape)) : next.Orderly :=
  ⟨ys, h, by rw [hsame]; exact ht⟩

theorem put (h : db.Holds xs) (ht : Tidy (xs.map (·.definition.shape))) (hx : x ∈ xs) (hname : x.name = y.name)
    (hshape : y.definition.shape = x.definition.shape) (hnext : next.Holds (Content.put y xs)) : next.Orderly :=
  of_shapes ht hnext (Content.map_put (·.definition.shape) h.distinct hx hname hshape)

theorem ensure (h : db.Orderly) (hs : s.Accepted) {start : Int} (hok : db.ensure s start = .ok next) :
    next.Orderly := by
  obtain ⟨xs, hholds, ht⟩ := h
  have hvalid := IndexSpec.definition_valid hs.validate_eq hs.ascending hs.tokenizer start
  rcases hholds.ensure hvalid hok with ⟨rfl, _⟩ | hadded
  · exact ⟨xs, hholds, ht⟩
  · refine ⟨_, hadded.holds, ?_⟩
    rw [List.map_append]
    refine ht.append ?_ ?_
    · intro hkind shape hshape
      obtain ⟨x, hx, rfl⟩ := List.mem_map.mp hshape
      exact hadded.alone hkind x hx
    · intro hkind path hpath
      obtain ⟨f, hf, rfl⟩ := List.mem_map.mp hpath
      exact IndexSpec.not_builtin_of_validate hs.validate_eq hkind f hf

theorem deleteIndex (h : db.Orderly) (hok : db.deleteIndex name = .ok next) : next.Orderly := by
  obtain ⟨xs, hholds, ht⟩ := h
  exact ⟨_, (hholds.deleteIndex hok).holds, ht.sublist (List.filter_sublist.map _)⟩

theorem openDatabase (h : db.Orderly) {settings : ConnectionSettings} {file : FileState} {key? : Option EncryptionKey}
    (hok : Manager.openDatabase settings file key? db = .ok next) : next.Orderly := by
  obtain ⟨xs, hholds, ht⟩ := h
  refine of_shapes ht (hholds.openDatabase hok) ?_
  rw [upgraded, List.map_map]
  refine List.map_congr_left fun x _ => ?_
  rw [Function.comp_apply]
  split <;> rfl

theorem setSchemaVersion (h : db.Orderly) {version : Int}
    (hok : db.overwriteCatalog name .schemaVersion (.int version) = .ok next) : next.Orderly := by
  obtain ⟨xs, hholds, ht⟩ := h
  by_cases hthere : ∃ x ∈ xs, x.name = name
  · obtain ⟨x, hx, rfl⟩ := hthere
    refine put hholds ht hx ?_ ?_ (hholds.setSchemaVersion hx version hok) <;> rfl
  · have hnone : ∀ x ∈ xs, x.name ≠ name := fun x hx hname => hthere ⟨x, hx, hname⟩
    rw [hholds.setSchemaVersion_of_ne hnone version hok]
    exact ⟨xs, hholds, ht⟩

theorem applyBatch (h : db.Orderly) {since : Int} {page : Page}
    (hok : db.applyBatch name since page.changes page.checkpoint = .ok (.applied next)) : next.Orderly := by
  obtain ⟨xs, hholds, ht⟩ := h
  obtain ⟨outcome, houtcome, happlied⟩ := hholds.applyBatch_cases name since page
  rw [houtcome] at hok
  obtain ⟨x, hx, _, _, hnext⟩ := happlied next (Except.ok.inj hok)
  exact put hholds ht hx (Content.apply_name x page).symm (Definition.shape_of_bare (Content.bare_apply x page)) hnext

end Orderly

end Database

namespace Database

/-- A property of databases that every change of a database keeps, if the indexes that are deleted are among those that
may go. -/
structure Kept (p : Database → Prop) (mayGo : String → Prop) : Prop where
  ensure : ∀ {db next s start}, p db → IndexSpec.Accepted s → db.ensure s start = .ok next → p next
  deleteIndex : ∀ {db next name}, mayGo name → p db → db.deleteIndex name = .ok next → p next
  openDatabase : ∀ {db next settings file key?}, p db → Manager.openDatabase settings file key? db = .ok next → p next
  setSchemaVersion : ∀ {db next name version}, p db →
    db.overwriteCatalog name .schemaVersion (.int version) = .ok next → p next
  applyBatch : ∀ {db next name since} {page : Page}, p db →
    db.applyBatch name since page.changes page.checkpoint = .ok (.applied next) → p next

theorem Orderly.kept : Kept Orderly fun _ => True where
  ensure h hs hok := h.ensure hs hok
  deleteIndex _ h hok := h.deleteIndex hok
  openDatabase h hok := h.openDatabase hok
  setSchemaVersion h hok := h.setSchemaVersion hok
  applyBatch h hok := h.applyBatch hok

end Database

/-- The definition prescribes the table: its name, its kind and its columns. Nothing of the table is missing. -/
structure Definition.Prescribes (d : Definition) (t : Table) : Prop where
  name_eq : t.name = d.tableName
  columns_eq : t.columns = d.fieldColumns.map (·.2)
  fits : t.form.Fits d.kind
  whole : t.lost = []
  opened : t.opened = true

theorem Table.Keeps.prescribes {t : Table} {x : Content} (h : t.Keeps x) : x.definition.Prescribes t :=
  ⟨h.name_eq, h.columns_eq, h.fits, h.lost_eq, h.opened⟩

namespace Database

variable {db next : Database} {x y : Content} {xs : List Content} {name : String}

/-- The database has these definitions, which are valid together, and for each the table that it prescribes. -/
structure Accords (db : Database) (ds : List Definition) : Prop where
  definitions_eq : db.definitions = .ok ds
  prescribed : ∀ d ∈ ds, ∃ t ∈ db.tables, d.Prescribes t
  owned : ∀ t ∈ db.tables, ∃ d ∈ ds, d.Prescribes t
  tables_nodup : (db.tables.map (·.name)).Nodup
  valid : ∀ d ∈ ds, d.Valid
  apart : ds.Pairwise fun d e => sameName d.name e.name = false
  single : ds.Pairwise fun d e => d.kind ≠ .text ∨ e.kind ≠ .text
  fields : ∀ d ∈ ds, d.kind = .text → ∀ path ∈ d.paths, isBuiltin path = false

theorem sameName_tableNameOf (a b : String) : sameName (tableNameOf a) (tableNameOf b) = sameName a b :=
  sameName_append_left _ a b

theorem Holds.name_apart (h : db.Holds xs) (hx : x ∈ xs) (hy : y ∈ xs) (hne : x.name ≠ y.name) :
    sameName x.name y.name = false := by
  obtain ⟨t, ht, hk⟩ := h.tables.kept x hx
  obtain ⟨u, hu, hku⟩ := h.tables.kept y hy
  rw [← sameName_tableNameOf, ← Bool.not_eq_true]
  intro hsame
  have htu : sameName t.name u.name = true := by
    rw [hk.name_eq, hku.name_eq]
    exact hsame
  obtain rfl := Table.eq_of_sameName h.tables.apart ht hu List.mem_cons_self List.mem_cons_self htu
  exact hne ((hk.name_iff y).mp hku.name_eq)

theorem Holds.names_apart (h : db.Holds xs) : xs.Pairwise fun x y => sameName x.name y.name = false :=
  (List.pairwise_map.mp h.distinct).imp_of_mem fun {_ _} hx hy hne => h.name_apart hx hy hne

theorem Holds.tables_nodup (h : db.Holds xs) : (db.tables.map (·.name)).Nodup := by
  refine List.pairwise_map.mpr (h.tables.apart.imp fun {t u} htu heq => ?_)
  have hfree := htu t.name List.mem_cons_self u.name List.mem_cons_self
  rw [heq, sameName_refl] at hfree
  cases hfree

theorem Orderly.accords (h : db.Orderly) : ∃ ds, db.Accords ds := by
  obtain ⟨xs, hholds, ht⟩ := h
  have hperm := Catalog.sorted_perm (xs.map (·.definition))
  have hmem : ∀ d, d ∈ Catalog.sorted (xs.map (·.definition)) ↔ ∃ x ∈ xs, x.definition = d := by
    intro d
    rw [hperm.mem_iff, List.mem_map]
  refine ⟨_, hholds.definitions, ?_, ?_, hholds.tables_nodup, ?_, ?_, ?_, ?_⟩
  · intro d hd
    obtain ⟨x, hx, rfl⟩ := (hmem d).mp hd
    obtain ⟨t, htable, hk⟩ := hholds.tables.kept x hx
    exact ⟨t, htable, hk.prescribes⟩
  · intro t htable
    obtain ⟨x, hx, hk⟩ := hholds.tables.owned t htable
    exact ⟨x.definition, (hmem _).mpr ⟨x, hx, rfl⟩, hk.prescribes⟩
  · intro d hd
    obtain ⟨x, hx, rfl⟩ := (hmem d).mp hd
    exact hholds.valid x hx
  · refine (hperm.pairwise_iff fun {d e} hde => ?_).mpr (List.pairwise_map.mpr hholds.names_apart)
    rw [sameName_comm]
    exact hde
  · refine (hperm.pairwise_iff fun {d e} hde => hde.symm).mpr ?_
    have hsingle := List.pairwise_map.mp ht.single
    rw [List.pairwise_map]
    exact hsingle
  · intro d hd
    obtain ⟨x, hx, rfl⟩ := (hmem d).mp hd
    exact ht.fields _ (List.mem_map_of_mem hx)

/-! ## Other indexes -/

/-- Indexes of other names are as they were, with their checkpoints, recorded types and rows. -/
structure SameBut (name : String) (db next : Database) : Prop where
  definition?_eq : ∀ other, other ≠ name → next.definition? other = db.definition? other
  dump_eq : ∀ other, other ≠ name → next.dump other = db.dump other
  mem_tables : ∀ t, t.name ≠ tableNameOf name → (t ∈ next.tables ↔ t ∈ db.tables)

theorem SameBut.refl (name : String) (db : Database) : SameBut name db db :=
  ⟨fun _ _ => rfl, fun _ _ => rfl, fun _ _ => Iff.rfl⟩

theorem Holds.shows_congr {xs ys : List Content} (h : db.Holds xs) (hnext : next.Holds ys)
    (hsame : ∀ x, x.name = name → (x ∈ ys ↔ x ∈ xs)) :
    next.definition? name = db.definition? name ∧ next.dump name = db.dump name := by
  by_cases hthere : ∃ x ∈ xs, x.name = name
  · obtain ⟨x, hx, rfl⟩ := hthere
    have hx' := (hsame x rfl).mpr hx
    rw [h.definition? hx, hnext.definition? hx', h.dump hx, hnext.dump hx']
    exact ⟨rfl, rfl⟩
  · have hnone : ∀ x ∈ xs, x.name ≠ name := fun x hx hname => hthere ⟨x, hx, hname⟩
    have hnone' : ∀ x ∈ ys, x.name ≠ name := fun x hx hname => hnone x ((hsame x hname).mp hx) hname
    rw [h.definition?_none hnone, hnext.definition?_none hnone', h.dump_none hnone, hnext.dump_none hnone']
    exact ⟨rfl, rfl⟩

theorem Holds.sameBut {xs ys : List Content} (h : db.Holds xs) (hnext : next.Holds ys)
    (hsame : ∀ x, x.name ≠ name → (x ∈ ys ↔ x ∈ xs))
    (htables : ∀ t, t.name ≠ tableNameOf name → (t ∈ next.tables ↔ t ∈ db.tables)) : SameBut name db next := by
  have hshows : ∀ other, other ≠ name →
      next.definition? other = db.definition? other ∧ next.dump other = db.dump other := by
    intro other hother
    refine h.shows_congr hnext fun x hx => hsame x ?_
    rw [hx]
    exact hother
  exact ⟨fun other hother => (hshows other hother).1, fun other hother => (hshows other hother).2, htables⟩

theorem Orderly.ensure_sameBut (h : db.Orderly) {s : IndexSpec} (hs : s.Accepted) {start : Int}
    (hok : db.ensure s start = .ok next) : SameBut s.name db next := by
  obtain ⟨xs, hholds, _⟩ := h
  have hvalid := IndexSpec.definition_valid hs.validate_eq hs.ascending hs.tokenizer start
  rcases hholds.ensure hvalid hok with ⟨rfl, _⟩ | hadded
  · exact .refl s.name next
  · refine hholds.sameBut hadded.holds (fun x hx => ?_) fun t ht => ?_
    · have hne : x ≠ ⟨s.definition start, []⟩ := by
        rintro rfl
        exact hx rfl
      simp [hne]
    · obtain ⟨u, hname, htables⟩ := hadded.tables
      have hne : t ≠ u := by
        rintro rfl
        exact ht hname
      simp [htables, hne]

theorem Orderly.deleteIndex_sameBut (h : db.Orderly) (hok : db.deleteIndex name = .ok next) :
    SameBut name db next := by
  obtain ⟨xs, hholds, _⟩ := h
  have hremoved := hholds.deleteIndex hok
  refine hholds.sameBut hremoved.holds (fun x hx => ?_) fun t ht => ?_
  · simp [hx]
  · simp [hremoved.tables, ht]

end Database

end DocIndex
