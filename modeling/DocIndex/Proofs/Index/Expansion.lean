import DocIndex.Database
import DocIndex.Proofs.Index.Cells

/-! # Expansion of a document into rows

A revision with one array among its indexed fields has a row for each scalar element of this array, and the other
fields are repeated in all of them. The `i`th row shows the `i`th element, and each row shows a value in the very
column that is named for its path.
-/

namespace DocIndex

namespace Index

variable {α : Type} {own : List α} {cellsOf : α → List SqlValue} {isMany : α → Bool}

/-- The cell that a column gives to the `i`th row. A column of one cell gives this cell to all rows. -/
def cellIn (i : Nat) (cells : List SqlValue) : SqlValue := cells.getD (if cells.length = 1 then 0 else i) .null

/-- The number of rows: that of the cells of the column that may have many. -/
def height (isMany : α → Bool) (cellsOf : α → List SqlValue) (own : List α) : Nat :=
  (own.find? isMany).elim 1 fun a => (cellsOf a).length

theorem cellIn_eq_getElem {cells : List SqlValue} {i : Nat} (h : i < cells.length) : cellIn i cells = cells[i] := by
  unfold cellIn
  split
  · obtain rfl : i = 0 := by omega
    simp [h]
  · simp [h]

theorem combinations_single {cells : List SqlValue} (h : cells.length = 1) (i : Nat) (rest : List (List SqlValue)) :
    combinations (cells :: rest) = (combinations rest).map (cellIn i cells :: ·) := by
  obtain ⟨v, rfl⟩ := List.length_eq_one_iff.mp h
  exact List.flatMap_singleton _ _

theorem combinations_of_singles (h : ∀ a ∈ own, (cellsOf a).length = 1) (i : Nat) :
    combinations (own.map cellsOf) = [own.map fun a => cellIn i (cellsOf a)] := by
  induction own with
  | nil => rfl
  | cons a rest ih =>
    have hrest := ih fun b hb => h b (List.mem_cons_of_mem _ hb)
    rw [List.map_cons, combinations_single (h a List.mem_cons_self) i, hrest]
    rfl

/-- If no more than one column may have many cells then the choices are numbered by the cells of this one. -/
theorem combinations_eq_range (hone : ∀ a ∈ own, isMany a = false → (cellsOf a).length = 1)
    (h : own.countP isMany ≤ 1) :
    combinations (own.map cellsOf) =
      (List.range (height isMany cellsOf own)).map fun i => own.map fun a => cellIn i (cellsOf a) := by
  induction own with
  | nil => rfl
  | cons a rest ih =>
    have hone' : ∀ b ∈ rest, isMany b = false → (cellsOf b).length = 1 :=
      fun b hb => hone b (List.mem_cons_of_mem _ hb)
    cases ha : isMany a with
    | false =>
      have hsingle := hone a List.mem_cons_self ha
      have hcount : rest.countP isMany ≤ 1 := by simpa [ha] using h
      have hheight : height isMany cellsOf (a :: rest) = height isMany cellsOf rest := by simp [height, ha]
      have hcell : ∀ i, cellIn i (cellsOf a) = cellIn 0 (cellsOf a) := fun i => by simp [cellIn, hsingle]
      rw [List.map_cons, combinations_single hsingle 0, ih hone' hcount, hheight]
      simp [hcell, Function.comp_def]
    | true =>
      -- all the other columns have one cell, so the cells of this one number the rows
      have hsingles : ∀ b ∈ rest, (cellsOf b).length = 1 := by
        have hcount : rest.countP isMany = 0 := by
          rw [List.countP_cons_of_pos ha] at h
          omega
        exact fun b hb => hone' b hb (by simpa using List.countP_eq_zero.mp hcount b hb)
      have hrest := combinations_of_singles hsingles
      have hheight : height isMany cellsOf (a :: rest) = (cellsOf a).length := by simp [height, ha]
      have hcells : (cellsOf a).map (fun v => v :: rest.map fun b => cellIn 0 (cellsOf b)) =
          (List.range (cellsOf a).length).map fun i =>
            cellIn i (cellsOf a) :: rest.map fun b => cellIn i (cellsOf b) := by
        refine List.ext_getElem (by simp) ?_
        intro i hi _
        have hi : i < (cellsOf a).length := by simpa using hi
        have hsame : rest.map (fun b => cellIn 0 (cellsOf b)) = rest.map fun b => cellIn i (cellsOf b) := by
          simpa using (hrest 0).symm.trans (hrest i)
        simp [hsame, cellIn_eq_getElem hi]
      rw [List.map_cons, combinations, hrest 0, hheight]
      simp only [List.map_cons, List.map_nil]
      rw [← List.map_eq_flatMap]
      exact hcells

theorem find?_of_countP (h : own.countP isMany ≤ 1) {a : α} (ha : a ∈ own) (hmany : isMany a = true) :
    own.find? isMany = some a := by
  have hmem : a ∈ own.filter isMany := List.mem_filter.mpr ⟨ha, hmany⟩
  have hlength : (own.filter isMany).length = 1 := by
    have := List.length_pos_of_mem hmem
    rw [List.countP_eq_length_filter] at h
    omega
  obtain ⟨b, hb⟩ := List.length_eq_one_iff.mp hlength
  rw [hb, List.mem_singleton] at hmem
  rw [← List.head?_filter, hb, hmem]
  rfl

/-! ## Cells of a revision -/

variable {found : Option Json} {type? : Option FieldType} {i : Nat}

/-- What is shown in the `i`th row of what is found at a path: a scalar in all rows, of an array the `i`th of its
scalars. -/
def shown? (found : Option Json) (i : Nat) : Option Json :=
  match found with
  | some (.array items) => (items.filter fun v => (FieldType.of? v).isSome)[i]?
  | some v => if (FieldType.of? v).isSome then some v else none
  | none => none

theorem shown?_of_array (h : isArray found = true) (i : Nat) : shown? found i = (scalars found)[i]? := by
  unfold isArray at h
  split at h
  · rfl
  · cases h

theorem shown?_of_not_array (h : isArray found = false) (i : Nat) : shown? found i = (scalars found).head? := by
  cases found with
  | none => rfl
  | some v =>
    cases v with
    | array items => cases h
    | null | object members => rfl
    | bool b | number n | string s => rfl

theorem shown?_zero (found : Option Json) : shown? found 0 = (scalars found).head? := by
  cases h : isArray found with
  | true => rw [shown?_of_array h, List.head?_eq_getElem?]
  | false => exact shown?_of_not_array h 0

theorem isSome_of_shown? {v : Json} (h : shown? found i = some v) : (FieldType.of? v).isSome := by
  cases ha : isArray found with
  | true =>
    rw [shown?_of_array ha] at h
    exact isSome_of_mem_scalars (List.mem_of_getElem? h)
  | false =>
    rw [shown?_of_not_array ha] at h
    exact isSome_of_mem_scalars (List.mem_of_head? h)

theorem length_scalars_of_not_array (h : isArray found = false) : (scalars found).length ≤ 1 := by
  cases found with
  | none => exact Nat.zero_le 1
  | some v =>
    cases v with
    | array items => cases h
    | null | object members => exact Nat.zero_le 1
    | bool b | number n | string s => exact Nat.le_refl 1

theorem length_column (type? : Option FieldType) (values : List Json) :
    (column type? values).length = max 1 values.length := by
  cases values with
  | nil => rfl
  | cons v rest => simp [column]

theorem cellIn_column (h : isArray found = true → i < max 1 (scalars found).length) :
    cellIn i (column type? (scalars found)) =
      (shown? found i).elim .null (cellOf (fixType type? (scalars found))) := by
  cases ha : isArray found with
  | false =>
    have hle := length_scalars_of_not_array ha
    rw [shown?_of_not_array ha]
    cases hs : scalars found with
    | nil => rfl
    | cons v rest =>
      rw [hs, List.length_cons] at hle
      obtain rfl : rest = [] := List.length_eq_zero_iff.mp (by omega)
      rfl
  | true =>
    have hi := h ha
    rw [shown?_of_array ha]
    cases hs : scalars found with
    | nil => rfl
    | cons v rest =>
      rw [hs, List.length_cons] at hi
      have hlt : i < (v :: rest).length := by
        rw [List.length_cons]
        omega
      have hcells : i < (column type? (v :: rest)).length := by
        rw [length_column, List.length_cons]
        omega
      have hcolumn : column type? (v :: rest) = (v :: rest).map (cellOf (fixType type? (v :: rest))) := rfl
      rw [cellIn_eq_getElem hcells, List.getElem?_eq_getElem hlt]
      simp only [hcolumn, List.getElem_map]
      rfl

theorem newTypes_eq (r : Revision) (fields : List IndexField) :
    newTypes r fields = (fields.zip (fields.map (observe r))).filterMap fun p =>
      if p.1.type?.isNone then p.2.type?.map (p.1.path, ·) else none := by
  induction fields with
  | nil => rfl
  | cons f rest ih =>
    unfold newTypes
    cases hf : f.type? <;> cases ho : (observe r f).type? <;> simp [hf, ho, ih]

theorem observe_eq (r : Revision) (f : IndexField) :
    observe r f = if f.isBuiltin = true ∨ f.type?.isSome = true then f
      else { f with type? := (shown? (r.field? f.path) 0).bind FieldType.of? } := by
  rw [shown?_zero]
  unfold observe
  cases hb : f.isBuiltin with
  | true => simp
  | false =>
    cases f with
    | mk path type? => cases type? <;> simp [fixType]

end Index

/-! ## Rows of a revision -/

/-- What is shown at a path of a revision in its `i`th row. -/
def Revision.shown? (r : Revision) (path : String) (i : Nat) : Option Json := Index.shown? (r.field? path) i

namespace Definition

/-- How the `i`th row of a revision stands in the table of an index: the two identifiers and one cell for each field
of its own, as many as the table has columns. The column that is named for a path has the value that is shown at
this path, if the value has the type that is recorded afterwards, and null otherwise. -/
structure Shows (d : Definition) (t : Table) (r : Revision) (i : Nat) (row : Row) : Prop where
  cells_eq : ∃ own, Table.cells row = .text r.docId :: .text r.revId :: own ∧ own.length = d.columnFields.length
  length_cells : (Table.cells row).length = t.allColumns.length
  cell : ∀ path, d.covers path = true → ∃ column ∈ t.allColumns, d.columnFor? path = some column ∧
    ((t.cell row column = .null ∧
        ∀ v, r.shown? path i = some v → FieldType.of? v ≠ (d.settled r).typeOf? path) ∨
      (t.cell row column ≠ .null ∧
        ∃ v, r.shown? path i = some v ∧ FieldType.of? v = (d.settled r).typeOf? path ∧
          SqlValue.ofJson? v = some (t.cell row column)))

/-- What the rows of a revision are. A field takes a type only if it has none, that of the first value shown. -/
structure Expands (d : Definition) (t : Table) (r : Revision) (out : DocumentRows) : Prop where
  rows_eq_nil_iff : out.rows = [] ↔ 2 ≤ Index.arrays d.fields r
  length_of_none : Index.arrays d.fields r = 0 → out.rows.length = 1
  length_of_one : Index.arrays d.fields r = 1 → ∀ f ∈ d.columnFields, ∀ items,
    r.field? f.path = some (.array items) →
    out.rows.length = max 1 (items.countP fun v => (FieldType.of? v).isSome)
  shows : ∀ i row, out.rows[i]? = some row → d.Shows t r i row
  fields_eq : out.fields = d.fields.map fun f =>
    if f.isBuiltin = true ∨ f.type?.isSome = true then f
    else { f with type? := (r.shown? f.path 0).bind FieldType.of? }
  observed_eq : out.observed = (d.fields.zip out.fields).filterMap fun p =>
    if p.1.type?.isNone then p.2.type?.map (p.1.path, ·) else none

variable {d : Definition} {t : Table} {r : Revision} {f : IndexField} {i : Nat}

def cellsOf (r : Revision) (f : IndexField) : List SqlValue :=
  Index.column f.type? (Index.scalars (r.field? f.path))

def rowAt (d : Definition) (r : Revision) (i : Nat) : Row :=
  { docId := r.docId, revId := r.revId, cells := d.columnFields.map fun f => Index.cellIn i (cellsOf r f) }

def heightOf (d : Definition) (r : Revision) : Nat :=
  Index.height (fun f => Index.isArray (r.field? f.path)) (cellsOf r) d.columnFields

theorem valueRows_eq_range (h : Index.arrays d.fields r ≤ 1) :
    Index.valueRows d.fields r = (List.range (d.heightOf r)).map (d.rowAt r) := by
  have hone : ∀ f ∈ d.columnFields, Index.isArray (r.field? f.path) = false → (cellsOf r f).length = 1 := by
    intro f _ hf
    have := Index.length_scalars_of_not_array hf
    rw [cellsOf, Index.length_column]
    omega
  have hcombinations := Index.combinations_eq_range hone h
  rw [Index.valueRows_eq, if_neg (by omega)]
  have hcolumns : Index.columns d.fields r = d.columnFields.map (cellsOf r) := rfl
  rw [hcolumns, hcombinations, List.map_map]
  rfl

theorem heightOf_of_none (h : Index.arrays d.fields r = 0) : d.heightOf r = 1 := by
  have hnone : d.columnFields.find? (fun f => Index.isArray (r.field? f.path)) = none := by
    rw [List.find?_eq_none]
    exact List.countP_eq_zero.mp h
  rw [heightOf, Index.height, hnone]
  rfl

theorem heightOf_of_array (h : Index.arrays d.fields r ≤ 1) (hf : f ∈ d.columnFields)
    (harray : Index.isArray (r.field? f.path) = true) :
    d.heightOf r = max 1 (Index.scalars (r.field? f.path)).length := by
  have hle : d.columnFields.countP (fun f => Index.isArray (r.field? f.path)) ≤ 1 := h
  have hfind := Index.find?_of_countP hle hf harray
  rw [heightOf, Index.height, hfind]
  exact Index.length_column _ _

theorem heightOf_pos (h : Index.arrays d.fields r ≤ 1) : 1 ≤ d.heightOf r := by
  by_cases hnone : Index.arrays d.fields r = 0
  · rw [heightOf_of_none hnone]
  · obtain ⟨f, hf, harray⟩ := List.countP_pos_iff.mp (Nat.pos_of_ne_zero hnone)
    rw [heightOf_of_array h hf harray]
    omega

theorem typeOf?_settled (hk : d.kind = .value) (hn : d.paths.Nodup) (hf : f ∈ d.columnFields) :
    (d.settled r).typeOf? f.path = Index.fixType f.type? (Index.scalars (r.field? f.path)) := by
  obtain ⟨hmem, hb⟩ := List.mem_filter.mp hf
  have hb : f.isBuiltin = false := by simpa using hb
  have hfields : (d.settled r).fields = d.fields.map (Index.observe r) := by simp [settled, documentRows, hk]
  have hpaths : (d.settled r).paths.Nodup := by
    rw [paths, (d.refines_settled r).map_path]
    exact hn
  have hlater : Index.observe r f ∈ (d.settled r).columnFields := by
    rw [columnFields, List.mem_filter, hfields]
    exact ⟨List.mem_map_of_mem hmem, by simp [Index.isBuiltin_observe, hb]⟩
  have htype := (columnFor?_of_nodup hpaths hlater).2
  rw [Index.observe_path] at htype
  rw [htype]
  simp [Index.observe, hb]

theorem cell_rowAt (hk : d.kind = .value) (hn : d.paths.Nodup) (ht : t.columns = d.fieldColumns.map (·.2))
    (hle : Index.arrays d.fields r ≤ 1) (hi : i < d.heightOf r) (hf : f ∈ d.columnFields) :
    t.cellAt d (d.rowAt r i) f.path =
      (r.shown? f.path i).elim .null (Index.cellOf ((d.settled r).typeOf? f.path)) := by
  have hchoice := Table.cellAt_choice hn ht hf r.docId r.revId fun g => Index.cellIn i (cellsOf r g)
  rw [rowAt, hchoice, typeOf?_settled hk hn hf]
  refine Index.cellIn_column fun harray => ?_
  rw [← heightOf_of_array hle hf harray]
  exact hi

theorem columnFor?_mem (hn : d.paths.Nodup) (ht : t.columns = d.fieldColumns.map (·.2)) {path : String}
    (h : d.covers path = true) : ∃ column ∈ t.allColumns, d.columnFor? path = some column := by
  rcases covers_cases h with hb | ⟨f, hf, rfl, _⟩
  · refine ⟨path, ?_, if_pos hb⟩
    have hpath : path = idColumn ∨ path = revColumn := by simpa [isBuiltin] using hb
    rcases hpath with rfl | rfl <;> simp [Table.allColumns]
  · obtain ⟨⟨column, hmem, hcolumn⟩, _⟩ := columnFor?_of_nodup hn hf
    refine ⟨column, ?_, hcolumn⟩
    have hmem : column ∈ t.columns := by
      rw [ht]
      exact List.mem_map.mpr ⟨_, hmem, rfl⟩
    simp [Table.allColumns, hmem]

theorem cellOf_cases {type? : Option FieldType} {shown? : Option Json}
    (h : ∀ v, shown? = some v → (FieldType.of? v).isSome) :
    (shown?.elim .null (Index.cellOf type?) = .null ∧ ∀ v, shown? = some v → FieldType.of? v ≠ type?) ∨
      (shown?.elim .null (Index.cellOf type?) ≠ .null ∧
        ∃ v, shown? = some v ∧ FieldType.of? v = type? ∧
          SqlValue.ofJson? v = some (shown?.elim .null (Index.cellOf type?))) := by
  cases shown? with
  | none => exact Or.inl ⟨rfl, by simp⟩
  | some v =>
    have hscalar := h v rfl
    unfold Index.cellOf
    by_cases htype : type? = FieldType.of? v
    · right
      cases v with
      | null | array items | object members => cases hscalar
      | bool b | string s => simp [htype, SqlValue.ofJson?]
      | number n => cases n <;> simp [htype, SqlValue.ofJson?, SqlValue.ofNumber]; split <;> simp
    · left
      simp [htype, Ne.symm htype]

theorem shows_rowAt (hk : d.kind = .value) (hn : d.paths.Nodup) (ht : t.columns = d.fieldColumns.map (·.2))
    (hle : Index.arrays d.fields r ≤ 1) (hi : i < d.heightOf r) : d.Shows t r i (d.rowAt r i) where
  cells_eq := ⟨_, rfl, List.length_map _⟩
  length_cells := by
    have hlength : d.fieldColumns.length = d.columnFields.length := by
      rw [← map_fst_fieldColumns, List.length_map]
    simp [Table.cells, rowAt, Table.allColumns, ht, hlength]
  cell := by
    intro path hcovers
    obtain ⟨column, hmem, hcolumn⟩ := columnFor?_mem hn ht hcovers
    refine ⟨column, hmem, hcolumn, ?_⟩
    have hcell : t.cell (d.rowAt r i) column = t.cellAt d (d.rowAt r i) path := by
      rw [Table.cellAt, hcolumn]
      rfl
    have hshown : t.cellAt d (d.rowAt r i) path =
        (r.shown? path i).elim .null (Index.cellOf ((d.settled r).typeOf? path)) := by
      rcases covers_cases hcovers with hb | ⟨f, hf, rfl, _⟩
      · have hpath : path = idColumn ∨ path = revColumn := by simpa [isBuiltin] using hb
        rcases hpath with rfl | rfl <;> rfl
      · exact cell_rowAt hk hn ht hle hi hf
    rw [hcell, hshown]
    exact cellOf_cases fun v => Index.isSome_of_shown?

/-- The rows of a revision in a value index are those of the elements of the one array among its fields. -/
theorem documentRows_expands (hk : d.kind = .value) (hn : d.paths.Nodup)
    (ht : t.columns = d.fieldColumns.map (·.2)) (r : Revision) : d.Expands t r (d.documentRows r) := by
  have hrows : (d.documentRows r).rows = Index.valueRows d.fields r := by simp [documentRows, hk]
  have hfields : (d.documentRows r).fields = d.fields.map (Index.observe r) := by simp [documentRows, hk]
  have hobserved : (d.documentRows r).observed = Index.newTypes r d.fields := by simp [documentRows, hk]
  have hmany : 2 ≤ Index.arrays d.fields r → Index.valueRows d.fields r = [] :=
    fun h => by rw [Index.valueRows_eq, if_pos (show 1 < Index.arrays d.fields r from h)]
  have hlength : Index.arrays d.fields r ≤ 1 → (Index.valueRows d.fields r).length = d.heightOf r := by
    intro h
    rw [valueRows_eq_range h, List.length_map, List.length_range]
  constructor
  · rw [hrows]
    refine ⟨fun hnil => ?_, hmany⟩
    by_contra hfew
    have hle : Index.arrays d.fields r ≤ 1 := by omega
    have hpos := heightOf_pos hle
    rw [← hlength hle, hnil] at hpos
    exact absurd hpos (by decide)
  · intro hnone
    rw [hrows, hlength (by omega), heightOf_of_none hnone]
  · intro hone f hf items hitems
    have harray : Index.isArray (r.field? f.path) = true := by
      rw [hitems]
      rfl
    rw [hrows, hlength (by omega), heightOf_of_array (by omega) hf harray, hitems, List.countP_eq_length_filter]
    rfl
  · intro i row hrow
    rw [hrows] at hrow
    by_cases hle : Index.arrays d.fields r ≤ 1
    · rw [valueRows_eq_range hle, List.getElem?_map] at hrow
      obtain ⟨j, hj, rfl⟩ := Option.map_eq_some_iff.mp hrow
      obtain ⟨hi, rfl⟩ := List.getElem?_eq_some_iff.mp hj
      rw [List.getElem_range]
      exact shows_rowAt hk hn ht hle (by simpa using hi)
    · rw [hmany (by omega)] at hrow
      cases hrow
  · rw [hfields]
    exact List.map_congr_left fun f _ => Index.observe_eq r f
  · rw [hobserved, hfields]
    exact Index.newTypes_eq r d.fields

def tagged : Definition :=
  { name := "tagged", kind := .value,
    fields := [{ path := "_id" }, { path := "tags" }, { path := "age", type? := some .number }] }

def annTagged : Revision :=
  { docId := "ann", revId := "1-000001", sequence := 1,
    body := [("age", .int 40), ("tags", .array [.string "red", .int 1, .null, .string "tall"])] }

theorem documentRows_expands_tagged : tagged.kind = .value ∧ tagged.paths.Nodup ∧
    (∃ t, Database.emptyTable? tagged = .ok t ∧ t.columns = ["f1", "f2"] ∧
      tagged.Expands t annTagged (tagged.documentRows annTagged)) ∧
    (tagged.documentRows annTagged).rows =
      [⟨"ann", "1-000001", [.text "red", .int 40]⟩, ⟨"ann", "1-000001", [.null, .int 40]⟩,
        ⟨"ann", "1-000001", [.text "tall", .int 40]⟩] ∧
    (tagged.documentRows annTagged).observed = [("tags", .string)] :=
  ⟨rfl, by decide, ⟨_, rfl, rfl, documentRows_expands rfl (by decide) rfl annTagged⟩, by decide +kernel,
    by decide +kernel⟩

end Definition

end DocIndex
