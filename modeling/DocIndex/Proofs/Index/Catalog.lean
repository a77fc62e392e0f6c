import DocIndex.Proofs.Basic
import DocIndex.Proofs.Index.Settings
import Mathlib.Data.List.Nodup

/-! # What the catalog says

A catalog that was made from definitions is read back as these definitions, sorted by name. Their names
have to differ, each needs a field, and settings have to be in order.
-/

namespace DocIndex

/-- A definition that the catalog can keep. -/
structure Definition.Storable (d : Definition) : Prop where
  fields_ne_nil : d.fields ≠ []
  settings : d.settings.Ascending

namespace Catalog

def rowAt (d : Definition) (position : Nat) (f : IndexField) : CatalogRow :=
  { index := d.name, kind := d.kind.name, settings := d.settings.text, path := f.path,
    type? := f.type?.map FieldType.name, position, schemaVersion? := some d.schemaVersion,
    lastSequence? := some d.lastSequence }

def ofDefinitions (ds : List Definition) : Catalog := ds.flatMap fun d => rowsFrom d 0 d.fields

variable {d : Definition} {ds : List Definition}

theorem rowsFrom_cons (d : Definition) (position : Nat) (f : IndexField) (rest : List IndexField) :
    rowsFrom d position (f :: rest) = rowAt d position f :: rowsFrom d (position + 1) rest := rfl

theorem exists_of_mem_rowsFrom {position : Nat} {fields : List IndexField} {row : CatalogRow}
    (h : row ∈ rowsFrom d position fields) :
    ∃ i f, fields[i]? = some f ∧ row = rowAt d (position + i) f := by
  induction fields generalizing position with
  | nil => simp [rowsFrom] at h
  | cons f rest ih =>
    rw [rowsFrom_cons, List.mem_cons] at h
    rcases h with rfl | h
    · exact ⟨0, f, rfl, rfl⟩
    · obtain ⟨i, g, hg, hrow⟩ := ih h
      refine ⟨i + 1, g, hg, ?_⟩
      rw [hrow, Nat.add_right_comm, Nat.add_assoc]

theorem index_of_mem_rowsFrom {position : Nat} {fields : List IndexField} {row : CatalogRow}
    (h : row ∈ rowsFrom d position fields) : row.index = d.name := by
  obtain ⟨i, f, _, rfl⟩ := exists_of_mem_rowsFrom h
  rfl

theorem mem_ofDefinitions {row : CatalogRow} :
    row ∈ ofDefinitions ds ↔ ∃ d ∈ ds, row ∈ rowsFrom d 0 d.fields := List.mem_flatMap

/-! ## The order of rows -/

theorem isBefore_iff {a b : CatalogRow} :
    a.isBefore b = true ↔ a.index < b.index ∨ a.index = b.index ∧ a.position ≤ b.position := by
  simp [CatalogRow.isBefore]

theorem isBefore_trans (a b c : CatalogRow) (hab : a.isBefore b = true) (hbc : b.isBefore c = true) :
    a.isBefore c = true := by
  rw [isBefore_iff] at *
  rcases hab with hab | ⟨hab, hle⟩ <;> rcases hbc with hbc | ⟨hbc, hle'⟩
  · exact Or.inl (lt_trans hab hbc)
  · exact Or.inl (hbc ▸ hab)
  · exact Or.inl (hab ▸ hbc)
  · exact Or.inr ⟨hab.trans hbc, Nat.le_trans hle hle'⟩

theorem isBefore_total (a b : CatalogRow) : (a.isBefore b || b.isBefore a) = true := by
  rw [Bool.or_eq_true, isBefore_iff, isBefore_iff]
  rcases lt_trichotomy a.index b.index with h | h | h
  · exact Or.inl (Or.inl h)
  · rcases Nat.le_total a.position b.position with hle | hle
    · exact Or.inl (Or.inr ⟨h, hle⟩)
    · exact Or.inr (Or.inr ⟨h.symm, hle⟩)
  · exact Or.inr (Or.inl h)

theorem eq_of_same_place (hn : (ds.map (·.name)).Nodup) {a b : CatalogRow} (ha : a ∈ ofDefinitions ds)
    (hb : b ∈ ofDefinitions ds) (hab : a.isBefore b = true) (hba : b.isBefore a = true) : a = b := by
  obtain ⟨d, hd, ha⟩ := mem_ofDefinitions.mp ha
  obtain ⟨e, he, hb⟩ := mem_ofDefinitions.mp hb
  obtain ⟨i, f, hf, rfl⟩ := exists_of_mem_rowsFrom ha
  obtain ⟨j, g, hg, rfl⟩ := exists_of_mem_rowsFrom hb
  rw [isBefore_iff] at hab hba
  simp only [rowAt, Nat.zero_add] at hab hba
  have hname : d.name = e.name := by
    rcases hab with hab | ⟨hab, _⟩
    · rcases hba with hba | ⟨hba, _⟩
      · exact absurd (lt_trans hab hba) (lt_irrefl _)
      · exact hba.symm
    · exact hab
  obtain rfl : d = e := List.inj_on_of_nodup_map hn hd he hname
  have hij : i = j := by
    simp only [lt_self_iff_false, true_and, false_or] at hab hba
    omega
  subst hij
  obtain rfl : f = g := Option.some.inj (hf.symm.trans hg)
  rfl

theorem rowsFrom_pairwise (d : Definition) (position : Nat) (fields : List IndexField) :
    (rowsFrom d position fields).Pairwise fun a b => a.isBefore b = true := by
  induction fields generalizing position with
  | nil => exact List.Pairwise.nil
  | cons f rest ih =>
    rw [rowsFrom_cons]
    refine List.Pairwise.cons ?_ (ih (position + 1))
    intro row hrow
    obtain ⟨i, g, _, rfl⟩ := exists_of_mem_rowsFrom hrow
    rw [isBefore_iff]
    right
    exact ⟨rfl, by simp only [rowAt]; omega⟩

theorem ofDefinitions_pairwise (h : ds.Pairwise (·.name < ·.name)) :
    (ofDefinitions ds).Pairwise fun a b => a.isBefore b = true := by
  unfold ofDefinitions
  rw [List.pairwise_flatMap]
  refine ⟨fun d _ => rowsFrom_pairwise d 0 d.fields, ?_⟩
  refine h.imp ?_
  intro d e hlt a ha b hb
  rw [isBefore_iff, index_of_mem_rowsFrom ha, index_of_mem_rowsFrom hb]
  exact Or.inl hlt

/-- Definitions in the order in which they are listed. -/
def sorted (ds : List Definition) : List Definition := ds.mergeSort fun a b => a.name ≤ b.name

theorem sorted_perm (ds : List Definition) : (sorted ds).Perm ds := List.mergeSort_perm ds _

theorem sorted_ascending (hn : (ds.map (·.name)).Nodup) : (sorted ds).Pairwise (·.name < ·.name) := by
  have hle : (sorted ds).Pairwise fun a b => decide (a.name ≤ b.name) = true :=
    List.pairwise_mergeSort (fun a b c hab hbc => by simp at *; exact le_trans hab hbc)
      (fun a b => by simpa using le_total a.name b.name) ds
  have hne : (sorted ds).Pairwise fun a b => a.name ≠ b.name := by
    rw [← List.pairwise_map (f := Definition.name), ← List.nodup_iff_pairwise_ne]
    exact ((sorted_perm ds).map _).nodup_iff.mpr hn
  exact hle.imp₂ (fun a b h hab => lt_of_le_of_ne (by simpa using h) hab) hne

theorem place_perm (r : CatalogRow) (c : Catalog) : (place r c).Perm (r :: c) := by
  induction c with
  | nil => exact List.Perm.refl _
  | cons s rest ih =>
    unfold place
    split
    · exact List.Perm.refl _
    · exact (ih.cons s).trans (List.Perm.swap r s rest)

theorem arranged_perm (c : Catalog) : c.arranged.Perm c := by
  induction c with
  | nil => exact List.Perm.refl _
  | cons r rest ih => exact (place_perm r (arranged rest)).trans (ih.cons r)

theorem place_pairwise (r : CatalogRow) {c : Catalog} (h : c.Pairwise fun a b => a.isBefore b = true) :
    (place r c).Pairwise fun a b => a.isBefore b = true := by
  induction c with
  | nil => exact List.pairwise_singleton _ _
  | cons s rest ih =>
    obtain ⟨hs, hrest⟩ := List.pairwise_cons.mp h
    unfold place
    split
    · rename_i hr
      refine List.pairwise_cons.mpr ⟨?_, h⟩
      exact List.forall_mem_cons.mpr ⟨hr, fun b hb => isBefore_trans r s b hr (hs b hb)⟩
    · rename_i hr
      refine List.pairwise_cons.mpr ⟨fun b hb => ?_, ih hrest⟩
      rcases List.mem_cons.mp ((place_perm r rest).mem_iff.mp hb) with rfl | hb
      · have htotal := isBefore_total b s
        rwa [Bool.eq_false_iff.mpr hr, Bool.false_or] at htotal
      · exact hs b hb

theorem arranged_pairwise (c : Catalog) : c.arranged.Pairwise fun a b => a.isBefore b = true := by
  induction c with
  | nil => exact List.Pairwise.nil
  | cons r rest ih => exact place_pairwise r ih

theorem arranged_ofDefinitions (hn : (ds.map (·.name)).Nodup) :
    (ofDefinitions ds).arranged = ofDefinitions (sorted ds) := by
  have hleft := arranged_pairwise (ofDefinitions ds)
  have hright := ofDefinitions_pairwise (sorted_ascending hn)
  refine List.Perm.eq_of_pairwise ?_ hleft hright ?_
  · intro a b ha hb hab hba
    have hperm : (ofDefinitions (sorted ds)).Perm (ofDefinitions ds) := (sorted_perm ds).flatMap_right _
    exact eq_of_same_place hn ((arranged_perm _).mem_iff.mp ha) (hperm.mem_iff.mp hb) hab hba
  · exact (arranged_perm _).trans ((sorted_perm ds).flatMap_right _).symm

/-! ## Reading rows back -/

theorem FieldType.ofName?_name (t : FieldType) : FieldType.ofName? t.name = .ok t := by
  cases t <;> rfl

theorem IndexKind.ofName?_name (k : IndexKind) : IndexKind.ofName? k.name = .ok k := by
  cases k <;> rfl

theorem field?_rowAt (d : Definition) (position : Nat) (f : IndexField) : (rowAt d position f).field? = .ok f := by
  obtain ⟨path, type?⟩ := f
  cases type? with
  | none => rfl
  | some t =>
    simp only [CatalogRow.field?, rowAt, Option.map_some, FieldType.ofName?_name]
    rfl

theorem definition?_rowAt (hd : d.Storable) (position : Nat) (f : IndexField) :
    (rowAt d position f).definition? f = .ok { d with fields := [f] } := by
  simp only [CatalogRow.definition?, rowAt, Settings.read?_text hd.settings, IndexKind.ofName?_name]
  rfl

theorem foldlM_readRow_rest (d : Definition) (front : List IndexField) (before : List Definition)
    (position : Nat) (fields : List IndexField) :
    (rowsFrom d position fields).foldlM readRow ({ d with fields := front } :: before) =
      .ok ({ d with fields := front ++ fields } :: before) := by
  induction fields generalizing front position with
  | nil => simp [rowsFrom, pure, Except.pure]
  | cons f rest ih =>
    have hrow : readRow ({ d with fields := front } :: before) (rowAt d position f) =
        .ok ({ d with fields := front ++ [f] } :: before) := by
      simp only [readRow, field?_rowAt, bind, Except.bind]
      rw [if_pos (show d.name = (rowAt d position f).index from rfl)]
    have hrest := ih (front ++ [f]) (position + 1)
    rw [List.append_assoc, List.singleton_append] at hrest
    rw [rowsFrom_cons, List.foldlM_cons, hrow]
    exact hrest

theorem foldlM_readRow_definition (hd : d.Storable) (before : List Definition)
    (hb : ∀ e ∈ before.head?, e.name ≠ d.name) :
    (rowsFrom d 0 d.fields).foldlM readRow before = .ok (d :: before) := by
  -- the first row begins a definition, for the one read before has another name, and the others go on with it
  obtain ⟨f, rest, hfields⟩ := List.exists_cons_of_ne_nil hd.fields_ne_nil
  have hrow : readRow before (rowAt d 0 f) = .ok ({ d with fields := [f] } :: before) := by
    cases before with
    | nil => simp [readRow, field?_rowAt, definition?_rowAt hd, bind, Except.bind]
    | cons e more =>
      have hne : ¬ e.name = (rowAt d 0 f).index := hb e (by simp)
      simp [readRow, field?_rowAt, definition?_rowAt hd, hne, bind, Except.bind]
  rw [hfields, rowsFrom_cons, List.foldlM_cons, hrow]
  have hrest := foldlM_readRow_rest d [f] before 1 rest
  simp only [List.singleton_append, ← hfields] at hrest
  exact hrest

theorem foldlM_readRow_ofDefinitions (hs : ∀ d ∈ ds, d.Storable) (hn : (ds.map (·.name)).Nodup)
    (before : List Definition) (hb : ∀ e ∈ before, e.name ∉ ds.map (·.name)) :
    (ofDefinitions ds).foldlM readRow before = .ok (ds.reverse ++ before) := by
  induction ds generalizing before with
  | nil => rfl
  | cons d rest ih =>
    rw [List.map_cons, List.nodup_cons] at hn
    have hhead : ∀ e ∈ before.head?, e.name ≠ d.name := by
      intro e he heq
      exact hb e (List.mem_of_mem_head? he) (by simp [heq])
    have hfirst := foldlM_readRow_definition (hs d List.mem_cons_self) before hhead
    have hrest := ih (fun e he => hs e (List.mem_cons_of_mem _ he)) hn.2 (d :: before) (by
      intro e he
      rcases List.mem_cons.mp he with rfl | he
      · exact hn.1
      · exact fun hmem => hb e he (List.mem_cons_of_mem _ hmem))
    have hsplit : ofDefinitions (d :: rest) = rowsFrom d 0 d.fields ++ ofDefinitions rest := by
      simp [ofDefinitions]
    rw [hsplit, List.foldlM_append, hfirst]
    simp only [bind, Except.bind]
    rw [hrest]
    simp

/-- A catalog made from definitions is read back as these definitions, by name. -/
theorem definitions_ofDefinitions (hs : ∀ d ∈ ds, d.Storable) (hn : (ds.map (·.name)).Nodup) :
    (ofDefinitions ds).definitions = .ok (sorted ds) := by
  have htyped : (ofDefinitions ds).find? (!·.isTyped) = none := by
    rw [List.find?_eq_none]
    intro row hrow
    obtain ⟨d, _, hrow⟩ := mem_ofDefinitions.mp hrow
    obtain ⟨i, f, _, rfl⟩ := exists_of_mem_rowsFrom hrow
    simp [CatalogRow.isTyped, rowAt]
  have hperm := sorted_perm ds
  have hread := foldlM_readRow_ofDefinitions (fun d hd => hs d (hperm.mem_iff.mp hd))
    ((hperm.map _).nodup_iff.mpr hn) [] (by simp)
  unfold definitions
  rw [htyped, arranged_ofDefinitions hn]
  simp only [hread, bind, Except.bind, List.append_nil, List.reverse_reverse]

/-! ## Looking up one index -/

theorem find?_name_eq_some_iff (hn : (ds.map (·.name)).Nodup) {name : String} :
    ds.find? (·.name == name) = some d ↔ d ∈ ds ∧ d.name = name := by
  constructor
  · intro h
    exact ⟨List.mem_of_find?_eq_some h, by simpa using List.find?_some h⟩
  · rintro ⟨hd, rfl⟩
    exact find?_key hd fun e he hname => List.inj_on_of_nodup_map hn he hd hname

theorem find?_name_of_perm {es : List Definition} (hp : ds.Perm es) (hn : (ds.map (·.name)).Nodup)
    (name : String) : ds.find? (·.name == name) = es.find? (·.name == name) := by
  have hne : (es.map (·.name)).Nodup := (hp.map _).nodup_iff.mp hn
  apply Option.ext
  intro d
  rw [find?_name_eq_some_iff hn, find?_name_eq_some_iff hne, hp.mem_iff]

theorem definition?_ofDefinitions (hs : ∀ d ∈ ds, d.Storable) (hn : (ds.map (·.name)).Nodup) (name : String) :
    (ofDefinitions ds).definition? name = .ok (ds.find? (·.name == name)) := by
  unfold definition?
  rw [definitions_ofDefinitions hs hn]
  simp only [bind, Except.bind]
  rw [find?_name_of_perm (sorted_perm ds) (((sorted_perm ds).map _).nodup_iff.mpr hn)]

theorem find?_rowsFrom (name : String) (position : Nat) (fields : List IndexField) (hne : fields ≠ []) :
    ((rowsFrom d position fields).find? (·.index == name)).map (·.lastSequence?) =
      if d.name = name then some (some d.lastSequence) else none := by
  induction fields generalizing position with
  | nil => exact absurd rfl hne
  | cons f rest ih =>
    rw [rowsFrom_cons, List.find?_cons]
    by_cases h : d.name = name
    · simp [rowAt, h]
    · have hb : ((rowAt d position f).index == name) = false := by simpa [rowAt] using h
      simp only [hb, if_neg h]
      cases rest with
      | nil => rfl
      | cons g more => simpa [h] using ih (position + 1) (by simp)

theorem lastSequence?_ofDefinitions (hs : ∀ d ∈ ds, d.Storable) (name : String) :
    (ofDefinitions ds).lastSequence? name = .ok ((ds.find? (·.name == name)).map (·.lastSequence)) := by
  have hfind : ((ofDefinitions ds).find? (·.index == name)).map (·.lastSequence?) =
      ((ds.find? (·.name == name)).map (·.lastSequence)).map some := by
    induction ds with
    | nil => rfl
    | cons d rest ih =>
      have hrest := ih fun e he => hs e (List.mem_cons_of_mem _ he)
      have hfirst := find?_rowsFrom (d := d) name 0 d.fields (hs d List.mem_cons_self).fields_ne_nil
      have hsplit : ofDefinitions (d :: rest) = rowsFrom d 0 d.fields ++ ofDefinitions rest := by
        simp [ofDefinitions]
      rw [hsplit, List.find?_append, List.find?_cons]
      by_cases h : d.name = name
      · rw [if_pos h] at hfirst
        obtain ⟨row, hrow, hseq⟩ := Option.map_eq_some_iff.mp hfirst
        simp [hrow, hseq, h]
      · rw [if_neg h, Option.map_eq_none_iff] at hfirst
        have hb : (d.name == name) = false := by simpa using h
        simp only [hfirst, Option.none_or, hb]
        exact hrest
  unfold lastSequence?
  cases hrow : (ofDefinitions ds).find? (·.index == name) with
  | none =>
    rw [hrow, Option.map_none] at hfind
    have hnone := Option.map_eq_none_iff.mp hfind.symm
    simp [hnone]
  | some row =>
    rw [hrow, Option.map_some] at hfind
    obtain ⟨sequence, hseq, heq⟩ := Option.map_eq_some_iff.mp hfind.symm
    simp [← heq, hseq]

end Catalog

end DocIndex
