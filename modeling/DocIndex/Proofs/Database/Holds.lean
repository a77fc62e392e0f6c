import DocIndex.Database
import DocIndex.Proofs.Index.CatalogChanges
import DocIndex.Proofs.Index.Table
import DocIndex.Proofs.Index.Valid
import DocIndex.Proofs.Maintenance.Follows

/-! # What a database holds

A database holds the contents of its indexes if its catalog was made from their definitions and each has a
table of its own. What an operation does to such a database is told by what it does to the contents, and
a batch of changes never fails on it.
-/

namespace DocIndex

namespace Content

def put (y : Content) (xs : List Content) : List Content := xs.map fun x => if x.name = y.name then y else x

variable {x y z : Content} {xs : List Content}

theorem put_put (h : y.name = z.name) (xs : List Content) : put z (put y xs) = put z xs := by
  unfold put
  rw [List.map_map]
  refine List.map_congr_left fun x _ => ?_
  rw [Function.comp_apply, ← h]
  split
  · rw [if_pos rfl]
  · rfl

theorem mem_put : z ∈ put y xs ↔ (z ∈ xs ∧ z.name ≠ y.name) ∨ (z = y ∧ ∃ x ∈ xs, x.name = y.name) := by
  unfold put
  rw [List.mem_map]
  constructor
  · rintro ⟨x, hx, heq⟩
    split at heq
    · exact Or.inr ⟨heq.symm, x, hx, ‹_›⟩
    · rw [← heq]
      exact Or.inl ⟨hx, ‹_›⟩
  · rintro (⟨hz, hne⟩ | ⟨rfl, x, hx, hname⟩)
    · exact ⟨z, hz, if_neg hne⟩
    · exact ⟨x, hx, if_pos hname⟩

theorem mem_put_self (hx : x ∈ xs) (h : x.name = y.name) : y ∈ put y xs :=
  mem_put.mpr (Or.inr ⟨rfl, x, hx, h⟩)

theorem map_name_put (y : Content) (xs : List Content) : (put y xs).map name = xs.map name := by
  unfold put
  rw [List.map_map]
  refine List.map_congr_left fun x _ => ?_
  rw [Function.comp_apply]
  split
  · exact ‹x.name = y.name›.symm
  · rfl

theorem map_definition_put (y : Content) (xs : List Content) :
    (put y xs).map (·.definition) = Catalog.change y.name (fun _ => y.definition) (xs.map (·.definition)) := by
  unfold put Catalog.change
  rw [List.map_map, List.map_map]
  refine List.map_congr_left fun x _ => ?_
  by_cases h : x.definition.name = y.definition.name
  · simp [name, h]
  · simp [name, h]

theorem eq_of_name_eq (hn : (xs.map name).Nodup) (hx : x ∈ xs) (hy : y ∈ xs) (h : x.name = y.name) : x = y :=
  List.inj_on_of_nodup_map hn hx hy h

theorem map_put {β : Type} (f : Content → β) (hn : (xs.map name).Nodup) (hx : x ∈ xs) (hname : x.name = y.name)
    (h : f y = f x) : (put y xs).map f = xs.map f := by
  unfold put
  rw [List.map_map]
  refine List.map_congr_left fun z hz => ?_
  rw [Function.comp_apply]
  split
  · rename_i heq
    rw [h, eq_of_name_eq hn hx hz (hname.trans heq.symm)]
  · rfl

end Content

namespace Table

/-- Each content has a table, and there are no other tables. -/
structure Hold (ts : List Table) (xs : List Content) : Prop where
  kept : ∀ x ∈ xs, ∃ t ∈ ts, t.Keeps x
  owned : ∀ t ∈ ts, ∃ x ∈ xs, t.Keeps x
  apart : ts.Pairwise Apart

theorem tableNameOf_injective {a b : String} (h : tableNameOf a = tableNameOf b) : a = b :=
  (String.append_right_inj _).mp h

variable {ts : List Table} {t : Table} {x y : Content} {xs ys : List Content}

theorem Keeps.name_iff (ht : t.Keeps x) (y : Content) : t.name = y.definition.tableName ↔ x.name = y.name := by
  rw [ht.name_eq]
  exact ⟨fun h => tableNameOf_injective h, fun h => congrArg tableNameOf h⟩

namespace Hold

theorem congr (h : Hold ts xs) (hm : ∀ x, x ∈ xs ↔ x ∈ ys) : Hold ts ys where
  kept x hx := h.kept x ((hm x).mpr hx)
  owned t ht := by
    obtain ⟨x, hx, hk⟩ := h.owned t ht
    exact ⟨x, (hm x).mp hx, hk⟩
  apart := h.apart

theorem find? (h : Hold ts xs) (hx : x ∈ xs) :
    ∃ t ∈ ts, t.Keeps x ∧ ts.find? (·.name == x.definition.tableName) = some t := by
  obtain ⟨t, ht, hk⟩ := h.kept x hx
  refine ⟨t, ht, hk, ?_⟩
  rw [← hk.name_eq]
  exact find?_name h.apart ht

/-- A table that is changed under its names keeps another content of the same name. -/
theorem replace (h : Hold ts xs) (hn : (xs.map Content.name).Nodup) (hx : x ∈ xs) (hxy : x.name = y.name)
    {t' : Table} (ht' : t'.Keeps y) (hnames : ∀ t ∈ ts, t.Keeps x → t'.allNames = t.allNames) :
    Hold (ts.map fun t => if t.name = x.definition.tableName then t' else t) (Content.put y xs) := by
  obtain ⟨t, ht, hk⟩ := h.kept x hx
  refine ⟨?_, ?_, ?_⟩
  · intro z hz
    rcases Content.mem_put.mp hz with ⟨hz, hne⟩ | ⟨rfl, _⟩
    · obtain ⟨u, hu, hku⟩ := h.kept z hz
      refine ⟨u, List.mem_map.mpr ⟨u, hu, if_neg ?_⟩, hku⟩
      rw [hku.name_iff, hxy]
      exact hne
    · exact ⟨t', List.mem_map.mpr ⟨t, ht, if_pos hk.name_eq⟩, ht'⟩
  · intro u hu
    obtain ⟨v, hv, rfl⟩ := List.mem_map.mp hu
    obtain ⟨z, hz, hkz⟩ := h.owned v hv
    split
    · exact ⟨y, Content.mem_put_self hx hxy, ht'⟩
    · rename_i hne
      rw [hkz.name_iff, hxy] at hne
      exact ⟨z, Content.mem_put.mpr (Or.inl ⟨hz, hne⟩), hkz⟩
  · have hsame : ∀ u ∈ ts, (if u.name = x.definition.tableName then t' else u).allNames = u.allNames := by
      intro u hu
      split
      · obtain ⟨z, hz, hkz⟩ := h.owned u hu
        rename_i hname
        obtain rfl : z = x := Content.eq_of_name_eq hn hz hx ((hkz.name_iff x).mp hname)
        exact hnames u hu hkz
      · rfl
    rw [List.pairwise_map]
    refine h.apart.imp_of_mem ?_
    intro u v hu hv huv
    unfold Apart
    rw [hsame u hu, hsame v hv]
    exact huv

theorem append (h : Hold ts xs) (ht : t.Keeps x) (hfree : ∀ u ∈ ts, u.Apart t) : Hold (ts ++ [t]) (xs ++ [x]) := by
  refine ⟨?_, ?_, ?_⟩
  · intro z hz
    rcases List.mem_append.mp hz with hz | hz
    · obtain ⟨u, hu, hku⟩ := h.kept z hz
      exact ⟨u, List.mem_append_left _ hu, hku⟩
    · rw [List.mem_singleton.mp hz]
      exact ⟨t, List.mem_append_right _ (List.mem_singleton_self t), ht⟩
  · intro u hu
    rcases List.mem_append.mp hu with hu | hu
    · obtain ⟨z, hz, hku⟩ := h.owned u hu
      exact ⟨z, List.mem_append_left _ hz, hku⟩
    · rw [List.mem_singleton.mp hu]
      exact ⟨x, List.mem_append_right _ (List.mem_singleton_self x), ht⟩
  · rw [List.pairwise_append]
    refine ⟨h.apart, List.pairwise_singleton _ _, ?_⟩
    intro u hu v hv
    rw [List.mem_singleton.mp hv]
    exact hfree u hu

theorem remove (h : Hold ts xs) (ht : t ∈ ts) (hk : t.Keeps x) :
    Hold (ts.filter fun u => !t.allNames.any (sameName u.name)) (xs.filter (·.name != x.name)) := by
  have hother : ∀ u ∈ ts, ∀ z ∈ xs, u.Keeps z →
      ((!t.allNames.any (sameName u.name)) = true ↔ z.name ≠ x.name) := by
    intro u hu z hz hkz
    rw [survives_iff h.apart hu ht, hk.name_eq, Ne, hkz.name_iff]
  refine ⟨?_, ?_, h.apart.sublist List.filter_sublist⟩
  · intro z hz
    obtain ⟨hz, hne⟩ := List.mem_filter.mp hz
    obtain ⟨u, hu, hku⟩ := h.kept z hz
    exact ⟨u, List.mem_filter.mpr ⟨hu, (hother u hu z hz hku).mpr (by simpa using hne)⟩, hku⟩
  · intro u hu
    obtain ⟨hu, hkeep⟩ := List.mem_filter.mp hu
    obtain ⟨z, hz, hku⟩ := h.owned u hu
    exact ⟨z, List.mem_filter.mpr ⟨hz, by simpa using (hother u hu z hz hku).mp hkeep⟩, hku⟩

end Hold

end Table

namespace Database

/-- The catalog has the definitions of the contents, and the tables keep them. -/
structure Holds (db : Database) (xs : List Content) : Prop where
  catalog_eq : db.catalog = Catalog.ofDefinitions (xs.map (·.definition))
  distinct : (xs.map Content.name).Nodup
  valid : ∀ x ∈ xs, x.definition.Valid
  tables : Table.Hold db.tables xs

variable {db : Database} {x y : Content} {xs : List Content} {name : String}

namespace Holds

theorem empty : Holds {} [] where
  catalog_eq := rfl
  distinct := List.nodup_nil
  valid := by simp
  tables := ⟨by simp, by simp, List.Pairwise.nil⟩

theorem storable (h : db.Holds xs) : ∀ d ∈ xs.map (·.definition), d.Storable := by
  intro d hd
  obtain ⟨x, hx, rfl⟩ := List.mem_map.mp hd
  exact (h.valid x hx).storable

theorem names_nodup (h : db.Holds xs) : ((xs.map (·.definition)).map (·.name)).Nodup := by
  rw [List.map_map]
  exact h.distinct

theorem definitions (h : db.Holds xs) : db.definitions = .ok (Catalog.sorted (xs.map (·.definition))) := by
  unfold Database.definitions
  rw [h.catalog_eq]
  exact Catalog.definitions_ofDefinitions h.storable h.names_nodup

theorem find?_definition (h : db.Holds xs) (hx : x ∈ xs) :
    (xs.map (·.definition)).find? (·.name == x.name) = some x.definition :=
  (Catalog.find?_name_eq_some_iff h.names_nodup).mpr ⟨List.mem_map_of_mem hx, rfl⟩

theorem definition? (h : db.Holds xs) (hx : x ∈ xs) : db.definition? x.name = .ok (some x.definition) := by
  unfold Database.definition?
  rw [h.catalog_eq, Catalog.definition?_ofDefinitions h.storable h.names_nodup, h.find?_definition hx]

theorem find?_definition_none (hname : ∀ x ∈ xs, x.name ≠ name) :
    (xs.map (·.definition)).find? (·.name == name) = none := by
  rw [List.find?_eq_none]
  intro d hd
  obtain ⟨x, hx, rfl⟩ := List.mem_map.mp hd
  simpa [Content.name] using hname x hx

theorem definition?_none (h : db.Holds xs) (hname : ∀ x ∈ xs, x.name ≠ name) :
    db.definition? name = .ok none := by
  unfold Database.definition?
  rw [h.catalog_eq, Catalog.definition?_ofDefinitions h.storable h.names_nodup, find?_definition_none hname]

theorem exists_content (h : db.Holds xs) {d : Definition} (hd : db.definition? name = .ok (some d)) :
    ∃ x ∈ xs, x.name = name ∧ x.definition = d := by
  by_cases hthere : ∃ x ∈ xs, x.name = name
  · obtain ⟨x, hx, rfl⟩ := hthere
    rw [h.definition? hx] at hd
    exact ⟨x, hx, rfl, Option.some.inj (Except.ok.inj hd)⟩
  · rw [h.definition?_none fun x hx hname => hthere ⟨x, hx, hname⟩] at hd
    cases hd

theorem lastSequence? (h : db.Holds xs) (hx : x ∈ xs) :
    db.catalog.lastSequence? x.name = .ok (some x.definition.lastSequence) := by
  rw [h.catalog_eq, Catalog.lastSequence?_ofDefinitions h.storable, h.find?_definition hx]
  rfl

theorem lastSequence?_none (h : db.Holds xs) (hname : ∀ x ∈ xs, x.name ≠ name) :
    db.catalog.lastSequence? name = .ok none := by
  rw [h.catalog_eq, Catalog.lastSequence?_ofDefinitions h.storable, find?_definition_none hname]
  rfl

theorem table? (h : db.Holds xs) (hx : x ∈ xs) :
    ∃ t ∈ db.tables, t.Keeps x ∧ db.table? x.definition.tableName = .ok t := by
  obtain ⟨t, ht, hk, hfind⟩ := h.tables.find? hx
  refine ⟨t, ht, hk, ?_⟩
  unfold Database.table?
  rw [hfind]
  simp only [hk.checkOpen, bind, Except.bind]

theorem dump (h : db.Holds xs) (hx : x ∈ xs) : db.dump x.name = .ok (some (x.rows.map Table.cells)) := by
  obtain ⟨t, _, hk, ht⟩ := h.table? hx
  unfold Database.dump
  simp only [h.definition? hx, ht, hk.contents?, bind, Except.bind, lift]

theorem dump_none (h : db.Holds xs) (hname : ∀ x ∈ xs, x.name ≠ name) : db.dump name = .ok none := by
  unfold Database.dump
  simp only [h.definition?_none hname, bind, Except.bind]

end Holds

end Database

end DocIndex
