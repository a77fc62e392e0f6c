import DocIndex.Proofs.Index.CatalogChanges
import Mathlib.Logic.Function.Basic

/-! # The catalog as a ledger

A definition is spread over the rows of its fields: what belongs to the index as a whole is repeated on each, settings
are text, and the order of fields is a number. A ledger has none of this; it has one definition for each name, and a
change concerns the definition of one name. The catalog shows at any time what is in the ledger, however definitions
were entered, changed and taken out.
-/

namespace DocIndex

/-- The definition of each index by name. -/
abbrev Ledger := String → Option Definition

def Ledger.empty : Ledger := fun _ => none

namespace CatalogChange

/-- What the change makes of the definition of its index. -/
def revise (d? : Option Definition) : CatalogChange → Option Definition
  | .insert d => some d
  | .erase _ => none
  | .setLastSequence _ sequence => d?.map fun d => { d with lastSequence := sequence }
  | .setFieldType _ path type => d?.map fun d => { d with fields := d.fields.map (Catalog.typed path type) }
  | .reset _ version => d?.map fun d => { d with lastSequence := 0, schemaVersion := version }

def enter (ledger : Ledger) (change : CatalogChange) : Ledger :=
  Function.update ledger change.index (change.revise (ledger change.index))

/-- A definition is entered only if no index has its name. It has fields, no path twice, and settings by key. -/
def Admissible (ledger : Ledger) : CatalogChange → Prop
  | .insert d => ledger d.name = none ∧ d.Storable ∧ d.paths.Nodup
  | _ => True

theorem enter_of_ne (ledger : Ledger) {change : CatalogChange} {other : String} (h : other ≠ change.index) :
    change.enter ledger other = ledger other := Function.update_of_ne h _ _

/-- Each change is admissible when its turn comes. -/
def AllAdmissible (ledger : Ledger) : List CatalogChange → Prop
  | [] => True
  | change :: rest => change.Admissible ledger ∧ AllAdmissible (change.enter ledger) rest

end CatalogChange

def Ledger.after (changes : List CatalogChange) : Ledger := changes.foldl CatalogChange.enter .empty

namespace Catalog

variable {c : Catalog} {ledger : Ledger} {ds : List Definition} {d : Definition} {name : String}

/-! ## Definitions by name -/

theorem find?_change {f : Definition → Definition} (hf : ∀ d, (f d).name = d.name) (ds : List Definition)
    (name other : String) : (change name f ds).find? (·.name == other) =
      if other = name then (ds.find? (·.name == other)).map f else ds.find? (·.name == other) := by
  have hkeeps : ((fun d : Definition => d.name == other) ∘ fun d => if d.name = name then f d else d) =
      fun d => d.name == other := by
    funext d
    rw [Function.comp_apply]
    split
    · rw [hf]
    · rfl
  unfold change
  rw [List.find?_map, hkeeps]
  cases hfind : ds.find? (·.name == other) with
  | none => simp
  | some d =>
    have hname : d.name = other := by simpa using List.find?_some hfind
    rw [Option.map_some, hname]
    split <;> rfl

theorem map_name_change {f : Definition → Definition} (hf : ∀ d, (f d).name = d.name) (name : String)
    (ds : List Definition) : (change name f ds).map (·.name) = ds.map (·.name) := by
  unfold change
  rw [List.map_map]
  refine List.map_congr_left fun d _ => ?_
  rw [Function.comp_apply]
  split
  · exact hf d
  · rfl

theorem find?_name_filter (ds : List Definition) (name other : String) :
    (ds.filter (·.name != name)).find? (·.name == other) =
      if other = name then none else ds.find? (·.name == other) := by
  rw [List.find?_filter]
  split
  · rename_i hsame
    simp [hsame]
  · rename_i hother
    refine congrArg (ds.find? ·) (funext fun d => ?_)
    by_cases hd : d.name = other
    · simp [hd, hother]
    · simp [hd]

/-! ## One change -/

/-- The catalog is made from these definitions, which are those of the ledger. -/
structure Keeps (c : Catalog) (ledger : Ledger) (ds : List Definition) : Prop where
  catalog_eq : c = ofDefinitions ds
  storable : ∀ d ∈ ds, d.Storable
  distinct : (ds.map (·.name)).Nodup
  find?_eq : ∀ name, ds.find? (·.name == name) = ledger name

namespace Keeps

theorem empty : Keeps [] .empty [] := ⟨rfl, by simp, List.nodup_nil, fun _ => rfl⟩

theorem insert (h : c.Keeps ledger ds) (hnew : ledger d.name = none) (hd : d.Storable) :
    (c.insert d).Keeps (Function.update ledger d.name (some d)) (ds ++ [d]) where
  catalog_eq := by rw [h.catalog_eq, insert_ofDefinitions]
  storable := List.forall_mem_append.mpr ⟨h.storable, by simpa using hd⟩
  distinct := by
    have hnot : d.name ∉ ds.map (·.name) := by
      rw [← h.find?_eq, List.find?_eq_none] at hnew
      rintro hmem
      obtain ⟨e, he, hname⟩ := List.mem_map.mp hmem
      exact hnew e he (by simp [hname])
    rw [List.map_append, List.map_singleton, List.nodup_append]
    exact ⟨h.distinct, List.nodup_singleton _, by simpa using fun e he hname => hnot (List.mem_map.mpr ⟨e, he, hname⟩)⟩
  find?_eq := by
    intro name
    rw [List.find?_append, h.find?_eq]
    by_cases hname : name = d.name
    · rw [hname, hnew, Function.update_self]
      simp
    · rw [Function.update_of_ne hname]
      simp [Ne.symm hname]

theorem erase (h : c.Keeps ledger ds) (name : String) :
    (c.erase name).Keeps (Function.update ledger name none) (ds.filter (·.name != name)) where
  catalog_eq := by rw [h.catalog_eq, erase_ofDefinitions]
  storable := fun d hd => h.storable d (List.mem_of_mem_filter hd)
  distinct := h.distinct.sublist (List.filter_sublist.map _)
  find?_eq := by
    intro other
    rw [find?_name_filter, h.find?_eq, Function.update_apply]

theorem change (h : c.Keeps ledger ds) {next : Catalog} {f : Definition → Definition}
    (hnext : next = ofDefinitions (Catalog.change name f ds)) (hname : ∀ d, (f d).name = d.name)
    (hstorable : ∀ d, d.Storable → (f d).Storable) :
    next.Keeps (Function.update ledger name ((ledger name).map f)) (Catalog.change name f ds) where
  catalog_eq := hnext
  storable := by
    intro e he
    obtain ⟨d, hd, rfl⟩ := List.mem_map.mp he
    split
    · exact hstorable d (h.storable d hd)
    · exact h.storable d hd
  distinct := by
    rw [map_name_change hname]
    exact h.distinct
  find?_eq := by
    intro other
    rw [find?_change hname, h.find?_eq, Function.update_apply]
    split
    · rename_i hsame
      rw [hsame]
    · rfl

theorem apply (h : c.Keeps ledger ds) {change : CatalogChange} (hc : change.Admissible ledger) :
    ∃ es, (change.apply c).Keeps (change.enter ledger) es := by
  cases change with
  | insert d => exact ⟨_, h.insert hc.1 hc.2.1⟩
  | erase name => exact ⟨_, h.erase name⟩
  | setLastSequence name sequence =>
    refine ⟨_, h.change ?_ (fun _ => rfl) fun d hd => ⟨hd.fields_ne_nil, hd.settings⟩⟩
    exact (congrArg (·.setLastSequence name sequence) h.catalog_eq).trans (setLastSequence_ofDefinitions ds name sequence)
  | setFieldType name path type =>
    refine ⟨_, h.change ?_ (fun _ => rfl) fun d hd => ⟨?_, hd.settings⟩⟩
    · exact (congrArg (·.setFieldType name path type) h.catalog_eq).trans (setFieldType_ofDefinitions ds name path type)
    · exact fun hnil => hd.fields_ne_nil (List.map_eq_nil_iff.mp hnil)
  | reset name version =>
    refine ⟨_, h.change ?_ (fun _ => rfl) fun d hd => ⟨hd.fields_ne_nil, hd.settings⟩⟩
    exact (congrArg (·.resetTo name version) h.catalog_eq).trans (resetTo_ofDefinitions ds name version)

theorem foldl (h : c.Keeps ledger ds) {changes : List CatalogChange} (hc : CatalogChange.AllAdmissible ledger changes) :
    ∃ es, (changes.foldl CatalogChange.apply c).Keeps (changes.foldl CatalogChange.enter ledger) es := by
  induction changes generalizing c ledger ds with
  | nil => exact ⟨ds, h⟩
  | cons change rest ih =>
    obtain ⟨es, hnext⟩ := h.apply hc.1
    exact ih hnext hc.2

end Keeps

/-! ## What the catalog shows -/

/-- Whoever reads the catalog finds what the ledger has: all definitions by name, each of them, and its checkpoint. -/
structure Shows (c : Catalog) (ledger : Ledger) : Prop where
  listed : ∃ ds, c.definitions = .ok ds ∧ ds.Pairwise (·.name < ·.name) ∧ ∀ d, d ∈ ds ↔ ledger d.name = some d
  definition? : ∀ name, c.definition? name = .ok (ledger name)
  lastSequence? : ∀ name, c.lastSequence? name = .ok ((ledger name).map (·.lastSequence))

theorem Keeps.shows (h : c.Keeps ledger ds) : c.Shows ledger := by
  obtain ⟨rfl, hs, hn, hfind⟩ := h
  refine ⟨⟨_, definitions_ofDefinitions hs hn, sorted_ascending hn, fun d => ?_⟩, fun name => ?_, fun name => ?_⟩
  · rw [(sorted_perm ds).mem_iff, ← hfind, find?_name_eq_some_iff hn, and_iff_left rfl]
  · rw [definition?_ofDefinitions hs hn, hfind]
  · rw [lastSequence?_ofDefinitions hs, hfind]

theorem typed_eq (path : String) (type : FieldType) (f : IndexField) :
    typed path type f = f ∧ (f.path = path → f.type?.isSome) ∨
      f.path = path ∧ f.type? = none ∧ typed path type f = { f with type? := some type } := by
  unfold typed
  by_cases hpath : f.path = path
  · cases htype : f.type? with
    | none => exact Or.inr ⟨hpath, rfl, by simp [hpath]⟩
    | some t => exact Or.inl ⟨by simp, fun _ => rfl⟩
  · exact Or.inl ⟨by simp [hpath], fun h => absurd h hpath⟩

/-- A catalog shows the definitions that were entered into it, as the changes since then have left them. A further
change leaves all indexes but its own as they are, and a type that is offered for a field is taken only if there is
none. -/
theorem after_shows {changes : List CatalogChange} (h : CatalogChange.AllAdmissible .empty changes) :
    (after changes).Shows (.after changes) ∧
    (∀ change : CatalogChange, change.Admissible (.after changes) → ∀ other, other ≠ change.index →
      (change.apply (after changes)).definition? other = (after changes).definition? other ∧
      (change.apply (after changes)).lastSequence? other = (after changes).lastSequence? other) ∧
    ∀ name path type d, (after changes).definition? name = .ok (some d) →
      ∃ fields, ((after changes).setFieldType name path type).definition? name = .ok (some { d with fields }) ∧
        List.Forall₂ (fun f g => g = f ∧ (f.path = path → f.type?.isSome) ∨
          f.path = path ∧ f.type? = none ∧ g = { f with type? := some type }) d.fields fields := by
  obtain ⟨ds, hkeeps⟩ : ∃ ds, (after changes).Keeps (.after changes) ds := Keeps.empty.foldl h
  have hdefinition := hkeeps.shows.definition?
  refine ⟨hkeeps.shows, ?_, ?_⟩
  · intro change hc other hother
    obtain ⟨es, hnext⟩ := hkeeps.apply hc
    rw [hnext.shows.definition?, hnext.shows.lastSequence?, hdefinition, hkeeps.shows.lastSequence?,
      change.enter_of_ne _ hother]
    exact ⟨rfl, rfl⟩
  · intro name path type d hd
    have hadmissible : (CatalogChange.setFieldType name path type).Admissible (.after changes) := trivial
    obtain ⟨es, hnext⟩ := hkeeps.apply hadmissible
    rw [hdefinition] at hd
    refine ⟨d.fields.map (typed path type), ?_, ?_⟩
    · refine (hnext.shows.definition? name).trans ?_
      simp [CatalogChange.enter, CatalogChange.index, CatalogChange.revise, Except.ok.inj hd]
    · rw [List.forall₂_map_right_iff, List.forall₂_same]
      exact fun f _ => typed_eq path type f

/-- Two indexes, one of them with a quote in a path and a line break in its settings, and what becomes of them. -/
def revisions : List CatalogChange :=
  [.insert
      { name := "notes", kind := .text, fields := [{ path := "no\"te" }, { path := "a.b" }],
        settings := [("tokenize", "por\nter")], schemaVersion := 1, lastSequence := 9 },
    .insert { name := "ages", kind := .value, fields := [{ path := "name" }, { path := "age" }] },
    .setFieldType "ages" "age" .number, .setLastSequence "notes" 12, .setFieldType "ages" "age" .string,
    .reset "notes" 2, .setLastSequence "ages" 42]

theorem after_shows_revisions :
    (after revisions).definition? "notes" = .ok (some
      { name := "notes", kind := .text, fields := [{ path := "no\"te" }, { path := "a.b" }],
        settings := [("tokenize", "por\nter")], schemaVersion := 2, lastSequence := 0 }) ∧
    (after revisions).definition? "ages" = .ok (some
      { name := "ages", kind := .value, fields := [{ path := "name" }, { path := "age", type? := some .number }],
        lastSequence := 42 }) ∧
    (after revisions).lastSequence? "ages" = .ok (some 42) := by
  have hadmissible : CatalogChange.AllAdmissible .empty revisions :=
    ⟨⟨rfl, ⟨by decide, by decide⟩, by decide⟩, ⟨rfl, ⟨by decide, by decide⟩, by decide⟩, trivial, trivial, trivial,
      trivial, trivial, trivial⟩
  obtain ⟨hshows, _⟩ := after_shows hadmissible
  rw [hshows.definition?, hshows.definition?, hshows.lastSequence?]
  exact ⟨rfl, rfl, rfl⟩

end Catalog

end DocIndex
