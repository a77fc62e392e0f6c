import DocIndex.Proofs.Query.Admission

/-! # Types of columns

The column of a field has cells of the recorded type of the field and nulls, and if no type is recorded it has nulls
alone. The recorded type is the declared one, or that of the first value which the revisions that were read offer.
-/

namespace DocIndex

/-- The cells that the column of a field may have under the recorded type of the field. -/
def FieldType.Admits : Option FieldType → SqlValue → Prop
  | none, cell => cell = .null
  | some .string, cell => cell = .null ∨ ∃ s, cell = .text s
  | some .number, cell => cell = .null ∨ (∃ i, cell = .int i) ∨ ∃ x, cell = .real x
  | some .boolean, cell => cell = .null ∨ cell = .int 0 ∨ cell = .int 1

namespace FieldType

theorem admits_null (type? : Option FieldType) : Admits type? .null := by
  cases type? with
  | none => rfl
  | some type => cases type <;> exact Or.inl rfl

theorem admits_cell {v : Json} (h : (of? v).isSome) : Admits (of? v) v.cell := by
  cases v with
  | bool b =>
    right
    cases b
    · exact Or.inl rfl
    · exact Or.inr rfl
  | number n =>
    right
    cases n with
    | int i =>
      by_cases hi : SqlValue.fitsInt i = true
      · left
        simp [Json.cell, SqlValue.ofJson?, SqlValue.ofNumber, hi]
      · right
        simp [Json.cell, SqlValue.ofJson?, SqlValue.ofNumber, hi]
    | float x => exact Or.inr ⟨x, rfl⟩
  | string s => exact Or.inr ⟨s, rfl⟩
  | null | array items | object members => simp [of?] at h

end FieldType

theorem Table.ShowsLive.admits {t : Table} {d : Definition} {r : Revision} {row : Row} {f : IndexField}
    (h : t.ShowsLive d r) (hrow : row ∈ t.rows) (hid : row.docId = r.docId) (hf : f ∈ d.columnFields) :
    FieldType.Admits f.type? (t.cellAt d row f.path) := by
  have hcovers : d.covers f.path = true := by
    rw [Definition.covers, Bool.or_eq_true, List.any_eq_true]
    exact Or.inr ⟨f, (List.mem_filter.mp hf).1, beq_self_eq_true _⟩
  rcases h.cellAt_cases (h.mem_rows.mp ⟨hrow, hid⟩) hcovers with hnull | ⟨v, hv, hcell⟩
  · have hnull : t.cellAt d row f.path = .null := by
      cases hc : t.cellAt d row f.path <;> simp [hc, SqlValue.isNull] at hnull
      rfl
    rw [hnull]
    exact FieldType.admits_null _
  · obtain ⟨hscalar, htype⟩ := Definition.mem_valuesOf.mp hv
    rw [hcell, ← (h.valid.columnFor? hf).2, ← htype]
    exact FieldType.admits_cell (Index.isSome_of_mem_scalars hscalar)

/-! ## What was read -/

/-- The values that a revision offers for a field: the scalar there, or the scalars of the array there. A tombstone
offers none. -/
def Revision.offered (r : Revision) (path : String) : List Json :=
  if r.deleted then [] else Index.scalars (r.field? path)

namespace Index

variable {read more : List Revision} {path : String}

/-- The type of the first value that some revisions offer for a field. -/
def firstType? (read : List Revision) (path : String) : Option FieldType :=
  (read.flatMap (·.offered path)).head?.bind FieldType.of?

theorem isSome_of_mem_offered {v : Json} (h : v ∈ read.flatMap (·.offered path)) : (FieldType.of? v).isSome := by
  obtain ⟨r, _, hv⟩ := List.mem_flatMap.mp h
  unfold Revision.offered at hv
  split at hv
  · cases hv
  · exact isSome_of_mem_scalars hv

theorem firstType?_eq_none_iff : firstType? read path = none ↔ ∀ r ∈ read, r.offered path = [] := by
  rw [← List.flatMap_eq_nil_iff, firstType?]
  cases hoffered : read.flatMap (·.offered path) with
  | nil => simp
  | cons v rest =>
    have hsome := isSome_of_mem_offered (v := v) (by rw [hoffered]; exact List.mem_cons_self)
    simp [Option.isSome_iff_ne_none.mp hsome]

theorem firstType?_append (read more : List Revision) (path : String) :
    firstType? (read ++ more) path = (firstType? read path).or (firstType? more path) := by
  cases hread : firstType? read path with
  | none =>
    rw [firstType?_eq_none_iff, ← List.flatMap_eq_nil_iff] at hread
    rw [firstType?, List.flatMap_append, hread]
    rfl
  | some type =>
    rw [firstType?] at hread ⊢
    obtain ⟨v, hv, htype⟩ := Option.bind_eq_some_iff.mp hread
    rw [List.flatMap_append, List.head?_append, hv]
    exact htype

theorem fixType_eq_or (type? : Option FieldType) (values : List Json) :
    fixType type? values = type?.or (values.head?.bind FieldType.of?) := by
  cases type? <;> rfl

end Index

namespace IndexField

variable {read more : List Revision} {declared f : IndexField}

/-- The field with its type as some revisions leave it. -/
def after (read : List Revision) (f : IndexField) : IndexField :=
  if f.isBuiltin then f else { f with type? := f.type?.or (Index.firstType? read f.path) }

theorem after_path (read : List Revision) (f : IndexField) : (f.after read).path = f.path := by
  unfold after
  split <;> rfl

theorem isBuiltin_after (read : List Revision) (f : IndexField) : (f.after read).isBuiltin = f.isBuiltin := by
  unfold isBuiltin
  rw [after_path]

theorem after_type (read : List Revision) (hb : f.isBuiltin = false) :
    (f.after read).type? = f.type?.or (Index.firstType? read f.path) := by
  rw [after, hb]
  rfl

theorem after_of_empty (h : ∀ r ∈ read, r.offered f.path = []) : f.after read = f := by
  rw [← Index.firstType?_eq_none_iff] at h
  unfold after
  split
  · rfl
  · rw [h, Option.or_none]

@[simp] theorem after_nil (f : IndexField) : f.after [] = f := after_of_empty (by simp)

theorem after_append (read more : List Revision) (f : IndexField) :
    f.after (read ++ more) = (f.after read).after more := by
  cases hb : f.isBuiltin with
  | true => simp only [after, hb, if_true]
  | false =>
    have hb' : (f.after read).isBuiltin = false := by rw [isBuiltin_after, hb]
    have htype : (f.after (read ++ more)).type? = ((f.after read).after more).type? := by
      rw [after_type _ hb, after_type _ hb', after_type _ hb, after_path, Index.firstType?_append, Option.or_assoc]
    have hpath : (f.after (read ++ more)).path = ((f.after read).after more).path := by
      rw [after_path, after_path, after_path]
    cases h : f.after (read ++ more)
    cases h' : (f.after read).after more
    simp_all

theorem after_singleton {r : Revision} (hlive : r.deleted = false) (f : IndexField) :
    f.after [r] = Index.observe r f := by
  unfold after Index.observe
  rw [Index.fixType_eq_or, Index.firstType?, List.flatMap_singleton, Revision.offered, hlive]
  rfl

/-- How the type of a field comes from the declared one and from what was read. -/
structure Typed (read : List Revision) (declared f : IndexField) : Prop where
  path_eq : f.path = declared.path
  builtin_eq : f.isBuiltin = true → f = declared
  declared_eq : ∀ type, declared.type? = some type → f.type? = some type
  isSome_iff : f.isBuiltin = false →
    (f.type?.isSome ↔ declared.type?.isSome ∨ ∃ r ∈ read, r.offered f.path ≠ [])
  first_eq : f.isBuiltin = false → declared.type? = none →
    ∀ v rest, read.flatMap (·.offered f.path) = v :: rest → f.type? = FieldType.of? v

theorem typed_after (read : List Revision) (f : IndexField) : Typed read f (f.after read) where
  path_eq := after_path read f
  builtin_eq hb := by
    rw [isBuiltin_after] at hb
    rw [after, if_pos hb]
  declared_eq type htype := by
    unfold after
    split
    · exact htype
    · rw [htype, Option.some_or]
  isSome_iff hb := by
    rw [isBuiltin_after] at hb
    have hread : (Index.firstType? read f.path).isSome ↔ ∃ r ∈ read, r.offered f.path ≠ [] := by
      rw [Option.isSome_iff_ne_none, Ne, Index.firstType?_eq_none_iff]
      simp
    rw [after_type _ hb, after_path, Option.isSome_or, Bool.or_eq_true, hread]
  first_eq hb hnone v rest hfirst := by
    rw [isBuiltin_after] at hb
    rw [after_path] at hfirst
    rw [after_type _ hb, hnone, Option.none_or, Index.firstType?, hfirst]
    rfl

theorem refines_after (read : List Revision) (fields : List IndexField) :
    Index.Refines fields (fields.map (·.after read)) := by
  unfold Index.Refines
  rw [List.forall₂_map_right_iff, List.forall₂_same]
  intro f _
  refine ⟨after_path read f, fun hsome => ?_⟩
  obtain ⟨type, htype⟩ := Option.isSome_iff_exists.mp hsome
  rw [htype]
  exact (typed_after read f).declared_eq type htype

end IndexField

namespace Content

theorem absorb_fields {x : Content} (hk : x.definition.kind = .value) (r : Revision) :
    (x.absorb r).definition.fields = x.definition.fields.map (·.after [r]) := by
  unfold absorb
  cases hd : r.deleted with
  | true =>
    have hnothing : ∀ f ∈ x.definition.fields, f.after [r] = f := by
      intro f _
      refine IndexField.after_of_empty fun q hq => ?_
      rw [List.mem_singleton.mp hq, Revision.offered, hd]
      rfl
    rw [List.map_congr_left hnothing]
    simp
  | false =>
    simp only [Bool.false_eq_true, if_false, Definition.settled, Definition.documentRows, hk]
    exact List.map_congr_left fun f _ => (IndexField.after_singleton hd f).symm

theorem absorbAll_fields {x : Content} (hk : x.definition.kind = .value) (changes : List Revision) :
    (x.absorbAll changes).definition.fields = x.definition.fields.map (·.after changes) := by
  induction changes generalizing x with
  | nil => simp [absorbAll]
  | cons r rest ih =>
    have hk' : (x.absorb r).definition.kind = .value := by rw [absorb_kind, hk]
    have hrest : (x.absorbAll (r :: rest)).definition.fields = ((x.absorb r).absorbAll rest).definition.fields := rfl
    rw [hrest, ih hk', absorb_fields hk, List.map_map]
    exact List.map_congr_left fun f _ => (IndexField.after_append [r] rest f).symm

end Content

end DocIndex
