import DocIndex.Index.Table
import DocIndex.Proofs.Index.Valid
import Std.Data.String.ToNat

/-! # Cells of rows

A row of a revision in a value index is a choice of a cell for each field. The cell of a field is found in its
column again, because columns are named after positions and so are all different.
-/

namespace DocIndex

namespace Definition

variable {d : Definition} {f : IndexField} {path column : String}

theorem column_of_mem {fields : List IndexField} {position : Nat} {p : IndexField × String}
    (h : p ∈ columnsFrom position fields) :
    p.1 ∈ fields ∧ p.1.isBuiltin = false ∧ ∃ k, position ≤ k ∧ p.2 = "f" ++ toString k := by
  induction fields generalizing position with
  | nil => simp [columnsFrom] at h
  | cons f rest ih =>
    have hrest : p ∈ columnsFrom (position + 1) rest →
        p.1 ∈ f :: rest ∧ p.1.isBuiltin = false ∧ ∃ k, position ≤ k ∧ p.2 = "f" ++ toString k := by
      intro hp
      obtain ⟨hmem, hb, k, hk, heq⟩ := ih hp
      exact ⟨List.mem_cons_of_mem _ hmem, hb, k, by omega, heq⟩
    unfold columnsFrom at h
    split at h
    · exact hrest h
    · rename_i hb
      rcases List.mem_cons.mp h with rfl | h
      · exact ⟨List.mem_cons_self, by simpa using hb, position, Nat.le_refl _, rfl⟩
      · exact hrest h

theorem columnName_injective {m n : Nat} (h : "f" ++ toString m = "f" ++ toString n) : m = n :=
  Nat.repr_injective ((String.append_right_inj _).mp h)

theorem columnsFrom_nodup (position : Nat) (fields : List IndexField) :
    ((columnsFrom position fields).map (·.2)).Nodup := by
  induction fields generalizing position with
  | nil => simp [columnsFrom]
  | cons f rest ih =>
    unfold columnsFrom
    split
    · exact ih (position + 1)
    · rw [List.map_cons, List.nodup_cons]
      refine ⟨?_, ih (position + 1)⟩
      intro hmem
      obtain ⟨p, hp, heq⟩ := List.mem_map.mp hmem
      obtain ⟨_, _, k, hk, hname⟩ := column_of_mem hp
      have := columnName_injective (hname.symm.trans heq)
      omega

theorem map_fst_columnsFrom (position : Nat) (fields : List IndexField) :
    (columnsFrom position fields).map (·.1) = fields.filter (!·.isBuiltin) := by
  induction fields generalizing position with
  | nil => rfl
  | cons f rest ih =>
    unfold columnsFrom
    cases hb : f.isBuiltin <;> simp [hb, ih]

theorem map_fst_fieldColumns (d : Definition) : d.fieldColumns.map (·.1) = d.columnFields :=
  map_fst_columnsFrom 0 d.fields

theorem find?_column {p : IndexField × String} (hp : p ∈ d.fieldColumns) :
    d.fieldColumns.find? (·.2 == p.2) = some p :=
  find?_key hp fun _ hq hcolumn => List.inj_on_of_nodup_map (columnsFrom_nodup 0 d.fields) hq hp hcolumn

theorem covers_cases (h : d.covers path = true) :
    isBuiltin path = true ∨ ∃ f ∈ d.columnFields, f.path = path ∧ f.isBuiltin = false := by
  cases hb : isBuiltin path with
  | true => exact Or.inl rfl
  | false =>
    right
    rw [covers, hb, Bool.false_or, List.any_eq_true] at h
    obtain ⟨f, hf, hpath⟩ := h
    have hfb : f.isBuiltin = false := by rw [IndexField.isBuiltin, beq_iff_eq.mp hpath, hb]
    exact ⟨f, List.mem_filter.mpr ⟨hf, by simp [hfb]⟩, beq_iff_eq.mp hpath, hfb⟩

theorem columnFor?_of_nodup (hn : d.paths.Nodup) (hf : f ∈ d.columnFields) :
    (∃ column, (f, column) ∈ d.fieldColumns ∧ d.columnFor? f.path = some column) ∧ d.typeOf? f.path = f.type? := by
  obtain ⟨hmem, hb⟩ := List.mem_filter.mp hf
  have hb : isBuiltin f.path = false := by simpa [IndexField.isBuiltin] using hb
  have hinj : ∀ g ∈ d.fields, g.path = f.path → g = f :=
    fun g hg hpath => List.inj_on_of_nodup_map hn hg hmem hpath
  constructor
  · rw [← map_fst_fieldColumns] at hf
    obtain ⟨p, hp, rfl⟩ := List.mem_map.mp hf
    refine ⟨p.2, hp, ?_⟩
    unfold Definition.columnFor?
    rw [hb]
    have hfields : (d.fieldColumns.map (·.1)).Nodup := by
      rw [map_fst_fieldColumns]
      exact (List.Nodup.of_map _ hn).filter _
    have hfind : d.fieldColumns.find? (·.1.path == p.1.path) = some p := by
      refine find?_key hp ?_
      intro q hq hpath
      exact List.inj_on_of_nodup_map hfields hq hp (hinj q.1 (column_of_mem hq).1 hpath)
    rw [hfind]
    rfl
  · unfold typeOf? field?
    rw [hb]
    have hfind : d.fields.find? (·.path == f.path) = some f := find?_key hmem hinj
    rw [hfind]
    rfl

theorem Valid.columnFor? (hd : d.Valid) (hf : f ∈ d.columnFields) :
    (∃ column, (f, column) ∈ d.fieldColumns ∧ d.columnFor? f.path = some column) ∧ d.typeOf? f.path = f.type? :=
  columnFor?_of_nodup hd.distinct hf

end Definition

/-! ## Rows as choices -/

namespace Table

variable {t : Table} {d : Definition} {f : IndexField} {path : String}

def cellAt (t : Table) (d : Definition) (r : Row) (path : String) : SqlValue :=
  (d.columnFor? path).elim .null (t.cell r)

theorem cellAt_id (t : Table) (d : Definition) (r : Row) : t.cellAt d r idColumn = .text r.docId := rfl

theorem cellAt_rev (t : Table) (d : Definition) (r : Row) : t.cellAt d r revColumn = .text r.revId := rfl

theorem cellAt_choice (hn : d.paths.Nodup) (ht : t.columns = d.fieldColumns.map (·.2)) (hf : f ∈ d.columnFields)
    (docId revId : String) (choice : IndexField → SqlValue) :
    t.cellAt d { docId, revId, cells := d.columnFields.map choice } f.path = choice f := by
  obtain ⟨⟨column, hmem, hcolumn⟩, _⟩ := Definition.columnFor?_of_nodup hn hf
  have hname : column ≠ idColumn ∧ column ≠ revColumn := by
    obtain ⟨_, _, k, _, heq⟩ := Definition.column_of_mem hmem
    have hhead : column.toList.head? = some 'f' := by
      have heq : column = "f" ++ toString k := heq
      rw [heq, String.toList_append]
      rfl
    constructor
    · rintro rfl
      exact absurd hhead (by decide)
    · rintro rfl
      exact absurd hhead (by decide)
  have hzip : t.columns.zip (d.columnFields.map choice) = d.fieldColumns.map fun p => (p.2, choice p.1) := by
    rw [ht, ← Definition.map_fst_fieldColumns, List.map_map, List.zip_map']
    rfl
  have hfind : (d.fieldColumns.map fun p => (p.2, choice p.1)).find? (·.1 == column) = some (column, choice f) := by
    rw [List.find?_map]
    have h := Definition.find?_column hmem
    simp only [Function.comp_def]
    rw [h]
    rfl
  unfold cellAt cell
  rw [hcolumn, Option.elim_some, if_neg hname.1, if_neg hname.2]
  simp only [hzip, hfind, Option.elim_some]

end Table

namespace Index

variable {fields : List IndexField} {r : Revision} {row : Row}

theorem mem_combinations {columns : List (List SqlValue)} {cells : List SqlValue} :
    cells ∈ combinations columns ↔ List.Forall₂ (fun v c => v ∈ c) cells columns := by
  induction columns generalizing cells with
  | nil => simp [combinations]
  | cons c rest ih =>
    unfold combinations
    simp only [List.mem_flatMap, List.mem_map, List.forall₂_cons_right_iff, ih]
    constructor
    · rintro ⟨v, hv, cells, hcells, rfl⟩
      exact ⟨v, cells, hv, hcells, rfl⟩
    · rintro ⟨v, cells, hv, hcells, rfl⟩
      exact ⟨v, hv, cells, hcells, rfl⟩

theorem exists_choice {own : List IndexField} (hn : own.Nodup) {column : IndexField → List SqlValue}
    {cells : List SqlValue} (h : List.Forall₂ (fun v c => v ∈ c) cells (own.map column)) :
    ∃ choice : IndexField → SqlValue, cells = own.map choice ∧ ∀ f ∈ own, choice f ∈ column f := by
  induction own generalizing cells with
  | nil =>
    rw [List.map_nil, List.forall₂_nil_right_iff] at h
    exact ⟨fun _ => .null, h, by simp⟩
  | cons f rest ih =>
    rw [List.map_cons, List.forall₂_cons_right_iff] at h
    obtain ⟨v, more, hv, hmore, rfl⟩ := h
    rw [List.nodup_cons] at hn
    obtain ⟨choice, rfl, hchoice⟩ := ih hn.2 hmore
    have hother : ∀ g ∈ rest, (if g = f then v else choice g) = choice g := by
      intro g hg
      refine if_neg ?_
      rintro rfl
      exact hn.1 hg
    refine ⟨fun g => if g = f then v else choice g, ?_, ?_⟩
    · rw [List.map_cons, if_pos rfl]
      exact congrArg _ (List.map_congr_left fun g hg => (hother g hg).symm)
    · intro g hg
      beta_reduce
      rcases List.mem_cons.mp hg with rfl | hg
      · rw [if_pos rfl]
        exact hv
      · rw [hother g hg]
        exact hchoice g hg

/-- The rows of a revision are the choices of a cell for each field. -/
theorem mem_valueRows (hn : (fields.map (·.path)).Nodup) :
    row ∈ valueRows fields r ↔ arrays fields r ≤ 1 ∧ ∃ choice : IndexField → SqlValue,
      (∀ f ∈ fields.filter (!·.isBuiltin), choice f ∈ column f.type? (scalars (r.field? f.path))) ∧
      row = { docId := r.docId, revId := r.revId, cells := (fields.filter (!·.isBuiltin)).map choice } := by
  have hown : (fields.filter (!·.isBuiltin)).Nodup := (List.Nodup.of_map _ hn).filter _
  rw [valueRows_eq]
  split
  · simp only [List.not_mem_nil, false_iff]
    omega
  · rename_i hle
    simp only [List.mem_map, mem_combinations, columns]
    constructor
    · rintro ⟨cells, hcells, rfl⟩
      obtain ⟨choice, rfl, hchoice⟩ := exists_choice hown hcells
      exact ⟨by omega, choice, hchoice, rfl⟩
    · rintro ⟨_, choice, hchoice, rfl⟩
      refine ⟨_, ?_, rfl⟩
      rw [List.forall₂_map_left_iff, List.forall₂_map_right_iff, List.forall₂_same]
      exact hchoice

end Index

end DocIndex
