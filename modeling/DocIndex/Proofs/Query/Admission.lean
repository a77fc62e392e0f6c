import DocIndex.Proofs.Query.Scans

/-! # What scans find of a document

The rows that represent a revision let a scan find its document just when the index admits the revision to the
group. Each row shows values of the revision or nulls, and each choice of values that the index sees is shown by
some row.
-/

namespace DocIndex

/-- A table has the rows of a live revision under a valid definition, which has nothing to learn from it. -/
structure Table.ShowsLive (t : Table) (d : Definition) (r : Revision) : Prop where
  valid : d.Valid
  columns_eq : t.columns = d.fieldColumns.map (·.2)
  rows_eq : t.rows.filter (·.docId == r.docId) = Index.valueRows d.fields r
  settled : ∀ f ∈ d.fields, Index.observe r f = f

theorem Content.Represents.showsLive {x : Content} {t : Table} {r : Revision} (h : x.Represents r)
    (hd : x.definition.Valid) (hk : x.definition.kind = .value) (ht : t.Keeps x) (hlive : r.deleted = false) :
    t.ShowsLive x.definition r := by
  have hrows := h.rows_eq
  have hsettles := h.settles hlive
  unfold Definition.Settles at hsettles
  simp only [Definition.rowsFor, hlive, Bool.false_eq_true, if_false, Definition.documentRows, hk] at hrows
  simp only [Definition.documentRows, hk] at hsettles
  exact ⟨hd, ht.columns_eq, by rw [ht.rows_eq]; exact hrows, Index.map_observe_eq_iff.mp hsettles⟩

variable {t : Table} {d : Definition} {r : Revision} {path : String} {c : Condition} {v : Json} {row : Row}
variable {group : List (String × Condition)}

/-! ## Values and conditions -/

namespace Definition

theorem mem_valuesOf : v ∈ d.valuesOf r path ↔
    v ∈ Index.scalars (r.field? path) ∧ FieldType.of? v = d.typeOf? path := by
  rw [valuesOf, List.mem_filter, beq_iff_eq]

theorem isComparable_of_mem_valuesOf (h : v ∈ d.valuesOf r path) : v.isComparable = true := by
  have hsome := Index.isSome_of_mem_scalars (mem_valuesOf.mp h).1
  cases v <;> simp_all [FieldType.of?, Json.isComparable]

theorem cell_not_null (h : v ∈ d.valuesOf r path) : v.cell.isNull = false :=
  (Compile.bind?_ok (isComparable_of_mem_valuesOf h)).2

theorem admits_iff (h : v ∈ d.valuesOf r path) (w : Json) :
    d.admits path w = true ↔ FieldType.of? w = FieldType.of? v := by
  obtain ⟨hmem, htype⟩ := mem_valuesOf.mp h
  obtain ⟨type, hsome⟩ := Option.isSome_iff_exists.mp (Index.isSome_of_mem_scalars hmem)
  unfold admits
  rw [← htype, hsome]
  exact beq_iff_eq

theorem matches_iff (h : v ∈ d.valuesOf r path) (hc : c.Comparing ∨ c = .present true) :
    c.Matches d path v.cell ↔ c.IsMetBy v := by
  rcases hc with hc | rfl
  · cases hc with
    | compare op w hw => simp [Condition.Matches, Condition.IsMetBy, cell_not_null h, admits_iff h]
    | oneOf ws hws => simp [Condition.Matches, Condition.IsMetBy, cell_not_null h, admits_iff h]
  · simp [Condition.Matches, Condition.IsMetBy, cell_not_null h]

theorem valuesOf_builtin (h : isBuiltin path = true) (t : Table) (row : Row) (hdoc : row.docId = r.docId)
    (hrev : row.revId = r.revId) : ∃ v, d.valuesOf r path = [v] ∧ t.cellAt d row path = v.cell := by
  have hpath : path = idColumn ∨ path = revColumn := by simpa [isBuiltin] using h
  have htype : d.typeOf? path = some .string := if_pos h
  rcases hpath with rfl | rfl
  · refine ⟨.string r.docId, ?_, ?_⟩
    · rw [valuesOf, htype]
      rfl
    · rw [Table.cellAt_id, hdoc]
      rfl
  · refine ⟨.string r.revId, ?_, ?_⟩
    · rw [valuesOf, htype]
      rfl
    · rw [Table.cellAt_rev, hrev]
      rfl

end Definition

theorem Condition.not_matches_null (d : Definition) (path : String) {cell : SqlValue} (h : cell.isNull = true) :
    ¬ c.Matches d path cell := by
  cases c <;> simp [Condition.Matches, h]

theorem Condition.isNull_of_matches {cell : SqlValue} (h : c.Matches d path cell) : cell.isNull = false := by
  by_contra hnull
  exact not_matches_null d path (by simpa using hnull) h

/-! ## Rows and choices -/

namespace Table.ShowsLive

open Definition

theorem mem_rows (h : t.ShowsLive d r) :
    (row ∈ t.rows ∧ row.docId = r.docId) ↔ row ∈ Index.valueRows d.fields r := by
  rw [← h.rows_eq, List.mem_filter, beq_iff_eq]

theorem mem_column (h : t.ShowsLive d r) {f : IndexField} (hf : f ∈ d.columnFields) {cell : SqlValue} :
    cell ∈ Index.column f.type? (Index.scalars (r.field? f.path)) ↔
      (Index.scalars (r.field? f.path) = [] ∧ cell = .null) ∨
      ∃ v ∈ Index.scalars (r.field? f.path), cell = Index.cellOf f.type? v := by
  obtain ⟨hmem, hb⟩ := List.mem_filter.mp hf
  have hfix : Index.fixType f.type? (Index.scalars (r.field? f.path)) = f.type? := by
    have hobserve := congrArg IndexField.type? (h.settled f hmem)
    have hb : f.isBuiltin = false := by simpa using hb
    simpa [Index.observe, hb] using hobserve
  unfold Index.column
  rw [hfix]
  cases hs : Index.scalars (r.field? f.path) with
  | nil => simp
  | cons v rest => simp [eq_comm]

theorem cellAt_cases (h : t.ShowsLive d r) (hrow : row ∈ Index.valueRows d.fields r)
    (hcovers : d.covers path = true) :
    (t.cellAt d row path).isNull = true ∨ ∃ v ∈ d.valuesOf r path, t.cellAt d row path = v.cell := by
  obtain ⟨_, choice, hchoice, rfl⟩ := (Index.mem_valueRows h.valid.distinct).mp hrow
  rcases covers_cases hcovers with hb | ⟨f, hf, rfl, _⟩
  · obtain ⟨v, hvalues, hcell⟩ := valuesOf_builtin hb t ⟨r.docId, r.revId, d.columnFields.map choice⟩ rfl rfl
    exact Or.inr ⟨v, by rw [hvalues]; exact List.mem_singleton_self v, hcell⟩
  · have hcell : t.cellAt d ⟨r.docId, r.revId, d.columnFields.map choice⟩ f.path = choice f :=
      cellAt_choice h.valid.distinct h.columns_eq hf _ _ _
    have hcolumns : (d.fields.filter (!·.isBuiltin)).map choice = d.columnFields.map choice := rfl
    rw [hcolumns, hcell]
    rcases (h.mem_column hf).mp (hchoice f hf) with ⟨_, hnull⟩ | ⟨v, hv, hcell⟩
    · left
      rw [hnull]
      rfl
    · rw [hcell]
      unfold Index.cellOf
      split
      · rename_i htype
        right
        exact ⟨v, mem_valuesOf.mpr ⟨hv, by rw [(h.valid.columnFor? hf).2, htype]⟩, rfl⟩
      · exact Or.inl rfl

/-- Every choice of values that the index sees is shown by a row. -/
theorem exists_row (h : t.ShowsLive d r) (hle : Index.arrays d.fields r ≤ 1) (pick : String → Json) :
    ∃ row ∈ Index.valueRows d.fields r, ∀ path, d.covers path = true → pick path ∈ d.valuesOf r path →
      t.cellAt d row path = (pick path).cell := by
  classical
  let choice : IndexField → SqlValue := fun f =>
    if pick f.path ∈ d.valuesOf r f.path then (pick f.path).cell
    else (Index.column f.type? (Index.scalars (r.field? f.path))).headD .null
  refine ⟨⟨r.docId, r.revId, d.columnFields.map choice⟩, ?_, ?_⟩
  · refine (Index.mem_valueRows h.valid.distinct).mpr ⟨hle, choice, ?_, rfl⟩
    intro f hf
    simp only [choice]
    split
    · rename_i hpick
      obtain ⟨hscalar, htype⟩ := mem_valuesOf.mp hpick
      rw [(h.valid.columnFor? hf).2] at htype
      refine (h.mem_column hf).mpr (Or.inr ⟨pick f.path, hscalar, ?_⟩)
      unfold Index.cellOf
      rw [if_pos htype.symm]
      rfl
    · unfold Index.column
      cases Index.scalars (r.field? f.path) with
      | nil => exact List.mem_singleton_self _
      | cons v rest => exact List.mem_cons_self
  · intro path hcovers hpick
    rcases covers_cases hcovers with hb | ⟨f, hf, rfl, _⟩
    · obtain ⟨v, hvalues, hcell⟩ := valuesOf_builtin hb t ⟨r.docId, r.revId, d.columnFields.map choice⟩ rfl rfl
      rw [hvalues, List.mem_singleton] at hpick
      rw [hcell, hpick]
    · rw [cellAt_choice h.valid.distinct h.columns_eq hf]
      exact if_pos hpick

theorem exists_shown (h : t.ShowsLive d r) (hle : Index.arrays d.fields r ≤ 1) {path : String} {v : Json}
    (hpath : d.covers path = true) (hv : v ∈ d.valuesOf r path) :
    ∃ row ∈ t.rows, row.docId = r.docId ∧ t.cellAt d row path = v.cell := by
  obtain ⟨row, hrow, hcell⟩ := h.exists_row hle fun _ => v
  obtain ⟨hmem, hid⟩ := h.mem_rows.mpr hrow
  exact ⟨row, hmem, hid, hcell path hpath hv⟩

/-! ## Scans -/

theorem finds_of_admits (h : t.ShowsLive d r) (hcovers : ∀ p ∈ group, d.covers p.1 = true)
    (hgroup : ∀ p ∈ group, p.2.Requested) (ha : d.Admits group r) : t.Finds d group r.docId := by
  obtain ⟨pick, hpick⟩ := ha.positive
  constructor
  · obtain ⟨row, hrow, hcell⟩ := h.exists_row ha.arrays_le pick
    obtain ⟨hmem, hid⟩ := h.mem_rows.mpr hrow
    refine ⟨row, hmem, hid, ?_⟩
    rintro ⟨path, c⟩ hp hsign
    obtain ⟨hvalue, hmet⟩ := hpick path c hp hsign
    rw [hcell path (hcovers _ hp) hvalue, matches_iff hvalue (Condition.Requested.positive (hgroup _ hp) hsign)]
    exact hmet
  · rintro ⟨path, c⟩ hp hsign
    have hpath : d.covers path = true := hcovers _ hp
    rcases Condition.Requested.negative (hgroup _ hp) hsign with rfl | ⟨inner, hinner, rfl⟩
    · have hnone := ha.absent path hp
      obtain ⟨row, hrow, _⟩ := h.exists_row ha.arrays_le pick
      refine ⟨⟨row, h.mem_rows.mpr hrow⟩, ?_⟩
      rintro ⟨row, hmem, hid, hcell⟩
      rcases h.cellAt_cases (h.mem_rows.mp ⟨hmem, hid⟩) hpath with hnull | ⟨v, hv, _⟩
      · rw [hnull] at hcell
        exact absurd hcell (by decide)
      · rw [hnone] at hv
        simp at hv
    · obtain ⟨hsome, hall⟩ := ha.negated path inner hp
      obtain ⟨v, hv⟩ := List.exists_mem_of_ne_nil _ hsome
      obtain ⟨row, hmem, hid, hcell⟩ := h.exists_shown ha.arrays_le hpath hv
      refine ⟨⟨row, hmem, hid, by rw [hcell]; exact cell_not_null hv⟩, ?_⟩
      rintro ⟨row, hmem, hid, hmatches⟩
      rcases h.cellAt_cases (h.mem_rows.mp ⟨hmem, hid⟩) hpath with hnull | ⟨w, hw, hcell⟩
      · exact Condition.not_matches_null d path hnull hmatches
      · rw [hcell, matches_iff hw (Or.inl hinner)] at hmatches
        exact hall w hw hmatches

theorem admits_of_finds (h : t.ShowsLive d r) (hcovers : ∀ p ∈ group, d.covers p.1 = true)
    (hgroup : ∀ p ∈ group, p.2.Requested) (hf : t.Finds d group r.docId) : d.Admits group r := by
  classical
  obtain ⟨row, hmem, hid, hall⟩ := hf.row
  have hrow := h.mem_rows.mp ⟨hmem, hid⟩
  have hle := ((Index.mem_valueRows h.valid.distinct).mp hrow).1
  refine ⟨hle, ?_, ?_, ?_⟩
  · refine ⟨fun path =>
      if hv : ∃ v ∈ d.valuesOf r path, t.cellAt d row path = v.cell then hv.choose else .null, ?_⟩
    intro path c hp hsign
    have hmatches := hall (path, c) hp hsign
    have hnull := Condition.isNull_of_matches hmatches
    have hv : ∃ v ∈ d.valuesOf r path, t.cellAt d row path = v.cell := by
      refine (h.cellAt_cases hrow (hcovers _ hp)).resolve_left ?_
      rw [hnull]
      decide
    simp only [dif_pos hv]
    obtain ⟨hvalue, hcell⟩ := hv.choose_spec
    rw [hcell, matches_iff hvalue (Condition.Requested.positive (hgroup _ hp) hsign)] at hmatches
    exact ⟨hvalue, hmatches⟩
  · intro path c hp
    have hpath : d.covers path = true := hcovers _ hp
    have hc := Condition.Requested.of_not (hgroup _ hp)
    obtain ⟨⟨row, hmem, hid, hcell⟩, hnone⟩ := hf.leaves (path, .not c) hp rfl
    constructor
    · rcases h.cellAt_cases (h.mem_rows.mp ⟨hmem, hid⟩) hpath with hnull | ⟨v, hv, _⟩
      · rw [hnull] at hcell
        exact absurd hcell (by decide)
      · exact List.ne_nil_of_mem hv
    · intro v hv hmet
      obtain ⟨row, hmem, hid, hcell⟩ := h.exists_shown hle hpath hv
      refine hnone ⟨row, hmem, hid, ?_⟩
      rw [hcell, matches_iff hv (Or.inl hc)]
      exact hmet
  · intro path hp
    obtain ⟨_, hnone⟩ := hf.leaves (path, .present false) hp rfl
    rw [List.eq_nil_iff_forall_not_mem]
    intro v hv
    obtain ⟨row, hmem, hid, hcell⟩ := h.exists_shown hle (hcovers _ hp) hv
    exact hnone ⟨row, hmem, hid, by rw [hcell]; exact cell_not_null hv⟩

/-- A scan finds a live document just when its index admits the latest revision. -/
theorem finds_iff (h : t.ShowsLive d r) (hcovers : ∀ p ∈ group, d.covers p.1 = true)
    (hgroup : ∀ p ∈ group, p.2.Requested) : t.Finds d group r.docId ↔ d.Admits group r :=
  ⟨h.admits_of_finds hcovers hgroup, h.finds_of_admits hcovers hgroup⟩

end Table.ShowsLive

end DocIndex
