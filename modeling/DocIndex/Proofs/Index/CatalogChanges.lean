import DocIndex.Database
import DocIndex.Proofs.Index.Catalog
import DocIndex.Proofs.Index.Rows

/-! # Changes of the catalog

Each change of the catalog is a change of the list of definitions it was made from: one more, one less,
or one of them changed. The types that a revision fixes are recorded one by one; together they are the
types that the definition has after that revision.
-/

namespace DocIndex

namespace Catalog

variable {d e : Definition} {ds : List Definition} {name : String}

def change (name : String) (f : Definition → Definition) (ds : List Definition) : List Definition :=
  ds.map fun d => if d.name = name then f d else d

theorem insert_ofDefinitions (ds : List Definition) (d : Definition) :
    (ofDefinitions ds).insert d = ofDefinitions (ds ++ [d]) := by
  simp [insert, ofDefinitions]

theorem contains_ofDefinitions (hs : ∀ d ∈ ds, d.Storable) :
    (ofDefinitions ds).contains name = true ↔ ∃ d ∈ ds, d.name = name := by
  simp only [contains, List.any_eq_true, beq_iff_eq]
  constructor
  · rintro ⟨row, hrow, hname⟩
    obtain ⟨d, hd, hrow⟩ := mem_ofDefinitions.mp hrow
    exact ⟨d, hd, (index_of_mem_rowsFrom hrow).symm.trans hname⟩
  · rintro ⟨d, hd, rfl⟩
    obtain ⟨f, rest, hfields⟩ := List.exists_cons_of_ne_nil (hs d hd).fields_ne_nil
    refine ⟨rowAt d 0 f, mem_ofDefinitions.mpr ⟨d, hd, ?_⟩, rfl⟩
    rw [hfields, rowsFrom_cons]
    exact List.mem_cons_self

theorem erase_ofDefinitions (ds : List Definition) (name : String) :
    (ofDefinitions ds).erase name = ofDefinitions (ds.filter (·.name != name)) := by
  induction ds with
  | nil => rfl
  | cons d rest ih =>
    have hsplit : ofDefinitions (d :: rest) = rowsFrom d 0 d.fields ++ ofDefinitions rest := by
      simp [ofDefinitions]
    unfold erase at ih ⊢
    rw [hsplit, List.filter_append, ih, List.filter_cons]
    by_cases h : d.name = name
    · have hnone : (rowsFrom d 0 d.fields).filter (·.index != name) = [] := by
        rw [List.filter_eq_nil_iff]
        intro row hrow
        simp [index_of_mem_rowsFrom hrow, h]
      simp [hnone, h]
    · have hall : (rowsFrom d 0 d.fields).filter (·.index != name) = rowsFrom d 0 d.fields := by
        rw [List.filter_eq_self]
        intro row hrow
        simp [index_of_mem_rowsFrom hrow, h]
      simp [hall, h, ofDefinitions]

/-! ## Changing one index -/

theorem modify_append (c c' : Catalog) (name : String) (g : CatalogRow → CatalogRow) :
    modify (c ++ c') name g = modify c name g ++ modify c' name g := List.map_append

theorem modify_rowsFrom_of_ne (h : d.name ≠ name) (g : CatalogRow → CatalogRow) (position : Nat)
    (fields : List IndexField) : modify (rowsFrom d position fields) name g = rowsFrom d position fields := by
  unfold modify
  rw [List.map_congr_left (g := id), List.map_id]
  intro row hrow
  rw [if_neg]
  · rfl
  · rwa [index_of_mem_rowsFrom hrow]

theorem modify_ofDefinitions {g : CatalogRow → CatalogRow} {f : Definition → Definition}
    (hg : ∀ d, d.name = name → modify (rowsFrom d 0 d.fields) name g = rowsFrom (f d) 0 (f d).fields)
    (ds : List Definition) : modify (ofDefinitions ds) name g = ofDefinitions (change name f ds) := by
  induction ds with
  | nil => rfl
  | cons d rest ih =>
    have hsplit : ofDefinitions (d :: rest) = rowsFrom d 0 d.fields ++ ofDefinitions rest := by
      simp [ofDefinitions]
    have hsplit' : ofDefinitions (change name f (d :: rest)) =
        (if d.name = name then rowsFrom (f d) 0 (f d).fields else rowsFrom d 0 d.fields) ++
          ofDefinitions (change name f rest) := by
      simp only [change, ofDefinitions, List.map_cons, List.flatMap_cons]
      split <;> rfl
    rw [hsplit, hsplit', modify_append, ih]
    congr 1
    by_cases h : d.name = name
    · rw [if_pos h, hg d h]
    · rw [if_neg h, modify_rowsFrom_of_ne h]

theorem modify_rowsFrom_self (g : CatalogRow → CatalogRow) (e : Definition) (k : IndexField → IndexField)
    (hg : ∀ position f, g (rowAt d position f) = rowAt e position (k f)) (position : Nat)
    (fields : List IndexField) :
    modify (rowsFrom d position fields) d.name g = rowsFrom e position (fields.map k) := by
  induction fields generalizing position with
  | nil => rfl
  | cons f rest ih =>
    have hrow : (if (rowAt d position f).index = d.name then g (rowAt d position f) else rowAt d position f) =
        rowAt e position (k f) := by
      rw [if_pos (show (rowAt d position f).index = d.name from rfl)]
      exact hg position f
    rw [rowsFrom_cons, List.map_cons, rowsFrom_cons, ← ih]
    unfold modify
    rw [List.map_cons, hrow]

theorem setLastSequence_ofDefinitions (ds : List Definition) (name : String) (sequence : Int) :
    (ofDefinitions ds).setLastSequence name sequence =
      ofDefinitions (change name (fun d => { d with lastSequence := sequence }) ds) := by
  refine modify_ofDefinitions ?_ ds
  rintro d rfl
  rw [modify_rowsFrom_self _ { d with lastSequence := sequence } id (fun _ _ => rfl), List.map_id]

theorem resetTo_ofDefinitions (ds : List Definition) (name : String) (version : Int) :
    (ofDefinitions ds).resetTo name version =
      ofDefinitions (change name (fun d => { d with lastSequence := 0, schemaVersion := version }) ds) := by
  refine modify_ofDefinitions ?_ ds
  rintro d rfl
  rw [modify_rowsFrom_self _ { d with lastSequence := 0, schemaVersion := version } id (fun _ _ => rfl), List.map_id]

theorem resetForRebuild_ofDefinitions (ds : List Definition) (name : String) :
    (ofDefinitions ds).resetForRebuild name =
      ofDefinitions (change name (fun d => { d with lastSequence := 0, schemaVersion := currentLayout }) ds) :=
  resetTo_ofDefinitions ds name currentLayout

/-- The field with a type, if this is its path and it has none. -/
def typed (path : String) (type : FieldType) (f : IndexField) : IndexField :=
  if f.path = path ∧ f.type?.isNone then { f with type? := some type } else f

theorem setFieldType_ofDefinitions (ds : List Definition) (name path : String) (type : FieldType) :
    (ofDefinitions ds).setFieldType name path type =
      ofDefinitions (change name (fun d => { d with fields := d.fields.map (typed path type) }) ds) := by
  refine modify_ofDefinitions ?_ ds
  rintro d rfl
  refine modify_rowsFrom_self _ { d with fields := d.fields.map (typed path type) } _ ?_ 0 d.fields
  intro position f
  have hnone : (f.type?.map FieldType.name).isNone = f.type?.isNone := by cases f.type? <;> rfl
  simp only [rowAt, typed, hnone]
  split <;> rfl

theorem setSchemaVersion_ofDefinitions (ds : List Definition) (name : String) (version : Int) :
    (ofDefinitions ds).overwrite? name .schemaVersion (.int version) =
      .ok (ofDefinitions (change name (fun d => { d with schemaVersion := version }) ds)) := by
  have hall : ∀ c : Catalog, c.overwrite? name .schemaVersion (.int version) =
      .ok (c.modify name fun r => { r with schemaVersion? := some version }) := by
    intro c
    induction c with
    | nil => rfl
    | cons row rest ih =>
      have hrow : (if row.index = name then row.set? .schemaVersion (.int version) else .ok row) =
          Except.ok (if row.index = name then { row with schemaVersion? := some version } else row) := by
        split <;> rfl
      unfold overwrite? modify at ih ⊢
      rw [List.mapM_cons, hrow, ih, List.map_cons]
      rfl
  rw [hall, modify_ofDefinitions (f := fun d => { d with schemaVersion := version })]
  rintro d rfl
  rw [modify_rowsFrom_self _ { d with schemaVersion := version } id (fun _ _ => rfl), List.map_id]

/-! ## Recording types -/

theorem typed_of_isSome {f : IndexField} (h : f.type?.isSome) (path : String) (type : FieldType) :
    typed path type f = f := by
  unfold typed
  rw [if_neg]
  rintro ⟨_, hnone⟩
  cases hf : f.type? <;> simp [hf] at h hnone

theorem typed_of_ne {f : IndexField} {path : String} (h : f.path ≠ path) (type : FieldType) :
    typed path type f = f := by
  unfold typed
  rw [if_neg fun hf => h hf.1]

theorem foldl_typed_of_isSome {f : IndexField} (h : f.type?.isSome) (types : List (String × FieldType)) :
    types.foldl (fun f t => typed t.1 t.2 f) f = f := by
  induction types with
  | nil => rfl
  | cons t rest ih => rw [List.foldl_cons, typed_of_isSome h, ih]

theorem newTypes_cons (r : Revision) (f : IndexField) (rest : List IndexField) :
    Index.newTypes r (f :: rest) =
      (match f.type?, (Index.observe r f).type? with
        | none, some t => [(f.path, t)]
        | _, _ => []) ++ Index.newTypes r rest := by
  cases htype : f.type? <;> cases hobs : (Index.observe r f).type? <;> simp [Index.newTypes, htype, hobs]

theorem observe_of_isSome {f : IndexField} (h : f.type?.isSome) (r : Revision) : Index.observe r f = f := by
  obtain ⟨path, type?⟩ := f
  obtain ⟨t, rfl⟩ := Option.isSome_iff_exists.mp h
  simp [Index.observe, Index.fixType]

theorem observe_of_none {f : IndexField} (h : f.type? = none) (r : Revision) :
    Index.observe r f = { f with type? := (Index.observe r f).type? } := by
  obtain ⟨path, type?⟩ := f
  obtain rfl : type? = none := h
  unfold Index.observe
  split <;> rfl

theorem foldl_typed_newTypes (r : Revision) (fields : List IndexField) (f : IndexField)
    (hf : ∀ g ∈ fields, g.path = f.path → g = f) :
    (Index.newTypes r fields).foldl (fun f t => typed t.1 t.2 f) f =
      if f ∈ fields then Index.observe r f else f := by
  induction fields with
  | nil => simp [Index.newTypes]
  | cons g rest ih =>
    have hrest := ih fun e he => hf e (List.mem_cons_of_mem _ he)
    rw [newTypes_cons, List.foldl_append]
    by_cases hg : g = f
    · subst hg
      rw [if_pos List.mem_cons_self]
      cases hnone : g.type? with
      | some t =>
        have hsome : g.type?.isSome := by rw [hnone]; rfl
        rw [foldl_typed_of_isSome hsome, foldl_typed_of_isSome hsome, observe_of_isSome hsome]
      | none =>
        have hobs := observe_of_none hnone r
        cases htype : (Index.observe r g).type? with
        | none =>
          rw [htype, ← hnone] at hobs
          rw [List.foldl_nil, hrest, hobs, ite_self]
        | some t =>
          have hfirst : typed g.path t g = Index.observe r g := by
            rw [hobs, htype, typed, if_pos ⟨rfl, by rw [hnone]; rfl⟩]
          rw [List.foldl_cons, hfirst, List.foldl_nil, foldl_typed_of_isSome (by rw [htype]; rfl)]
    · have hpath : f.path ≠ g.path := fun h => hg (hf g List.mem_cons_self h.symm)
      have hmem : f ∈ g :: rest ↔ f ∈ rest := by simp [Ne.symm hg]
      simp only [hmem, ← hrest]
      congr 1
      split
      · rw [List.foldl_cons, typed_of_ne hpath, List.foldl_nil]
      · rfl

theorem foldl_map_typed (types : List (String × FieldType)) (fields : List IndexField) :
    types.foldl (fun fs t => fs.map (typed t.1 t.2)) fields =
      fields.map fun f => types.foldl (fun f t => typed t.1 t.2 f) f := by
  induction types generalizing fields with
  | nil => simp
  | cons t rest ih =>
    rw [List.foldl_cons, ih, List.map_map]
    rfl

theorem foldl_newTypes (r : Revision) {fields : List IndexField} (hn : (fields.map (·.path)).Nodup) :
    (Index.newTypes r fields).foldl (fun fs t => fs.map (typed t.1 t.2)) fields =
      fields.map (Index.observe r) := by
  rw [foldl_map_typed]
  refine List.map_congr_left fun f hf => ?_
  rw [foldl_typed_newTypes r fields f fun g hg h => List.inj_on_of_nodup_map hn hg hf h, if_pos hf]

theorem change_change (name : String) (f g : Definition → Definition) (hf : ∀ d, (f d).name = d.name)
    (ds : List Definition) : change name g (change name f ds) = change name (g ∘ f) ds := by
  unfold change
  rw [List.map_map]
  refine List.map_congr_left fun d _ => ?_
  by_cases h : d.name = name
  · simp [h, hf]
  · simp [h]

theorem change_congr {f g : Definition → Definition} (h : ∀ d ∈ ds, d.name = name → f d = g d) :
    change name f ds = change name g ds := by
  refine List.map_congr_left fun d hd => ?_
  split
  · exact h d hd ‹_›
  · rfl

/-- The definition with these types recorded in turn. -/
def withTypes (types : List (String × FieldType)) (d : Definition) : Definition :=
  { d with fields := types.foldl (fun fs t => fs.map (typed t.1 t.2)) d.fields }

theorem recordTypes_ofDefinitions (ds : List Definition) (name : String) (types : List (String × FieldType)) :
    Database.recordTypes (ofDefinitions ds) name types = ofDefinitions (change name (withTypes types) ds) := by
  unfold Database.recordTypes
  induction types generalizing ds with
  | nil => simp [change, withTypes]
  | cons t rest ih =>
    rw [List.foldl_cons, setFieldType_ofDefinitions, ih, change_change]
    · rfl
    · exact fun _ => rfl

theorem withTypes_observed (hn : d.paths.Nodup) (r : Revision) :
    withTypes (d.documentRows r).observed d = d.settled r := by
  unfold withTypes Definition.settled Definition.documentRows
  cases d.kind with
  | value => simp only [foldl_newTypes r hn]
  | text => rfl

end Catalog

end DocIndex
