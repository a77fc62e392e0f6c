import DocIndex.Index.Rows
import Mathlib.Data.List.Forall2

/-! # Rows under changing types

The types of an index are fixed one after the other, by the documents that come first. A revision is
settled in an index once it fixes no further type. From then on its rows stay the same, whatever types
other documents fix, so the rows of a table always are those of its revisions under the present types.
-/

namespace DocIndex

namespace Index

/-- The same paths, with the same types where types are known before. -/
def Refines (fields later : List IndexField) : Prop :=
  List.Forall₂ (fun f g => g.path = f.path ∧ (f.type?.isSome → g.type? = f.type?)) fields later

variable {fields later : List IndexField} {r : Revision}

theorem Refines.refl (fields : List IndexField) : Refines fields fields := by
  unfold Refines
  rw [List.forall₂_same]
  exact fun f _ => ⟨rfl, fun _ => rfl⟩

theorem Refines.trans {last : List IndexField} (h : Refines fields later) (h' : Refines later last) :
    Refines fields last := by
  induction h generalizing last with
  | nil => exact h'
  | cons hf _ ih =>
    cases h' with
    | cons hg hrest =>
      refine List.Forall₂.cons ⟨hg.1.trans hf.1, ?_⟩ (ih hrest)
      intro hs
      have he := hf.2 hs
      exact (hg.2 (by rw [he]; exact hs)).trans he

theorem Refines.map_path (h : Refines fields later) : later.map (·.path) = fields.map (·.path) := by
  induction h with
  | nil => rfl
  | cons hf _ ih => simp [hf.1, ih]

theorem fixType_fixType (type? : Option FieldType) (values : List Json) :
    fixType (fixType type? values) values = fixType type? values := by
  cases type? with
  | some t => rfl
  | none =>
    simp only [fixType]
    split <;> simp_all

theorem column_fixType (type? : Option FieldType) (values : List Json) :
    column (fixType type? values) values = column type? values := by
  simp [column, fixType_fixType]

theorem observe_path (r : Revision) (f : IndexField) : (observe r f).path = f.path := by
  unfold observe
  split <;> rfl

theorem isBuiltin_observe (r : Revision) (f : IndexField) : (observe r f).isBuiltin = f.isBuiltin := by
  simp [IndexField.isBuiltin, observe_path]

theorem observe_observe (r : Revision) (f : IndexField) : observe r (observe r f) = observe r f := by
  unfold observe
  split
  · rfl
  · simp [IndexField.isBuiltin, fixType_fixType]

theorem refines_observe (r : Revision) (fields : List IndexField) :
    Refines fields (fields.map (observe r)) := by
  unfold Refines
  rw [List.forall₂_map_right_iff, List.forall₂_same]
  intro f _
  refine ⟨observe_path r f, ?_⟩
  intro hs
  unfold observe
  split
  · rfl
  · obtain ⟨t, ht⟩ := Option.isSome_iff_exists.mp hs
    simp [ht, fixType]

theorem map_observe_eq_iff : fields.map (observe r) = fields ↔ ∀ f ∈ fields, observe r f = f := by
  have h : fields.map (observe r) = fields.map id ↔ ∀ f ∈ fields, observe r f = id f := List.map_inj_left
  simpa using h

theorem isSome_of_mem_scalars {v : Json} {found : Option Json} (h : v ∈ scalars found) :
    (FieldType.of? v).isSome := by
  unfold scalars at h
  split at h
  · exact (List.mem_filter.mp h).2
  · split at h
    · rename_i hs
      rw [List.mem_singleton] at h
      rw [h]
      exact hs
    · simp at h
  · simp at h

theorem scalars_eq_nil_of_fixType {found : Option Json} (h : fixType none (scalars found) = none) :
    scalars found = [] := by
  cases hs : scalars found with
  | nil => rfl
  | cons v rest =>
    have hv : v ∈ scalars found := by rw [hs]; exact List.mem_cons_self
    have hsome := isSome_of_mem_scalars hv
    rw [hs] at h
    simp only [fixType, List.head?_cons, Option.bind_some] at h
    simp [h] at hsome

theorem column_eq_of_observe {f g : IndexField} (hb : f.isBuiltin = false) (ho : observe r f = f)
    (ht : f.type?.isSome → g.type? = f.type?) :
    column g.type? (scalars (r.field? f.path)) = column f.type? (scalars (r.field? f.path)) := by
  cases htype : f.type? with
  | some t =>
    rw [ht (by simp [htype]), htype]
  | none =>
    have hfix : fixType none (scalars (r.field? f.path)) = none := by
      have h := congrArg IndexField.type? ho
      simpa [observe, hb, htype] using h
    rw [scalars_eq_nil_of_fixType hfix]
    rfl

/-- A field that is settled stays settled when its type is fixed by others. -/
theorem observe_eq_of_observe {f g : IndexField} (hp : g.path = f.path) (ho : observe r f = f)
    (ht : f.type?.isSome → g.type? = f.type?) : observe r g = g := by
  have hb : g.isBuiltin = f.isBuiltin := by simp [IndexField.isBuiltin, hp]
  unfold observe
  cases hbf : f.isBuiltin with
  | true => simp [hb, hbf]
  | false =>
    rw [hb, hbf]
    simp only [Bool.false_eq_true, if_false]
    cases hg : g.type? with
    | some t => cases g; simp_all [fixType]
    | none =>
      have hf : f.type? = none := by
        by_contra hne
        have hs := Option.isSome_iff_ne_none.mpr hne
        rw [ht hs] at hg
        exact hne hg
      have hfix : fixType none (scalars (r.field? f.path)) = none := by
        have h := congrArg IndexField.type? ho
        simpa [observe, hbf, hf] using h
      cases g
      simp_all

def columns (fields : List IndexField) (r : Revision) : List (List SqlValue) :=
  (fields.filter (!·.isBuiltin)).map fun f => column f.type? (scalars (r.field? f.path))

def arrays (fields : List IndexField) (r : Revision) : Nat :=
  (fields.filter (!·.isBuiltin)).countP fun f => isArray (r.field? f.path)

theorem valueRows_eq (fields : List IndexField) (r : Revision) :
    valueRows fields r =
      if 1 < arrays fields r then []
      else (combinations (columns fields r)).map fun cells => { docId := r.docId, revId := r.revId, cells } := rfl

theorem arrays_of_refines (h : Refines fields later) (r : Revision) : arrays later r = arrays fields r := by
  unfold arrays
  induction h with
  | nil => rfl
  | @cons f g _ _ hf _ ih =>
    have hb : g.isBuiltin = f.isBuiltin := by simp [IndexField.isBuiltin, hf.1]
    cases hbf : f.isBuiltin <;> simp [List.countP_cons, hb, hbf, hf.1, ih]

theorem columns_of_refines (h : Refines fields later) (hs : ∀ f ∈ fields, observe r f = f) :
    columns later r = columns fields r := by
  unfold columns
  induction h with
  | nil => rfl
  | @cons f g _ _ hf _ ih =>
    have hb : g.isBuiltin = f.isBuiltin := by simp [IndexField.isBuiltin, hf.1]
    have hrest := ih fun f' hf' => hs f' (List.mem_cons_of_mem _ hf')
    cases hbf : f.isBuiltin with
    | true => simp [hb, hbf, hrest]
    | false =>
      have hcol := column_eq_of_observe hbf (hs f List.mem_cons_self) hf.2
      simp [hb, hbf, hrest, hf.1, hcol]

theorem columns_observe (fields : List IndexField) (r : Revision) :
    columns (fields.map (observe r)) r = columns fields r := by
  unfold columns
  induction fields with
  | nil => rfl
  | cons f rest ih =>
    cases hb : f.isBuiltin with
    | true => simp [isBuiltin_observe, hb, ih]
    | false =>
      have hcol : column (observe r f).type? (scalars (r.field? f.path)) =
          column f.type? (scalars (r.field? f.path)) := by
        simp [observe, hb, column_fixType]
      simp [isBuiltin_observe, hb, ih, observe_path, hcol]

theorem settled_of_refines (h : Refines fields later) (hs : ∀ f ∈ fields, observe r f = f) :
    ∀ g ∈ later, observe r g = g := by
  induction h with
  | nil => simp
  | @cons f g _ _ hf _ ih =>
    intro g' hg'
    rcases List.mem_cons.mp hg' with rfl | hg'
    · exact observe_eq_of_observe hf.1 (hs f List.mem_cons_self) hf.2
    · exact ih (fun f' hf' => hs f' (List.mem_cons_of_mem _ hf')) g' hg'

theorem textRow_of_refines (h : Refines fields later) (r : Revision) : textRow later r = textRow fields r := by
  have hcells : ((later.filter (!·.isBuiltin)).map fun f => words (r.field? f.path)) =
      (fields.filter (!·.isBuiltin)).map fun f => words (r.field? f.path) := by
    induction h with
    | nil => rfl
    | @cons f g _ _ hf _ ih =>
      have hb : g.isBuiltin = f.isBuiltin := by simp [IndexField.isBuiltin, hf.1]
      cases hbf : f.isBuiltin <;> simp [hb, hbf, hf.1, ih]
  unfold textRow
  rw [hcells]

end Index

namespace Definition

variable {d later : Definition} {r : Revision}

/-- A revision is settled in an index if it fixes no type. -/
def Settles (d : Definition) (r : Revision) : Prop := (d.documentRows r).fields = d.fields

def settled (d : Definition) (r : Revision) : Definition := { d with fields := (d.documentRows r).fields }

/-- The rows that stand for a revision; a tombstone has none. -/
def rowsFor (d : Definition) (r : Revision) : List Row := if r.deleted then [] else (d.documentRows r).rows

theorem refines_settled (d : Definition) (r : Revision) : Index.Refines d.fields (d.settled r).fields := by
  unfold settled documentRows
  cases d.kind with
  | value => exact Index.refines_observe r d.fields
  | text => exact Index.Refines.refl d.fields

theorem settled_settles (d : Definition) (r : Revision) : (d.settled r).Settles r := by
  unfold Settles settled documentRows
  cases d.kind with
  | value => simp [Index.observe_observe]
  | text => rfl

theorem documentRows_settled (d : Definition) (r : Revision) :
    ((d.settled r).documentRows r).rows = (d.documentRows r).rows := by
  unfold settled documentRows
  cases d.kind with
  | value =>
    simp only [Index.valueRows_eq, Index.columns_observe]
    rw [Index.arrays_of_refines (Index.refines_observe r d.fields) r]
  | text => rfl

/-- Rows and settledness outlast the types that others fix. -/
theorem documentRows_of_refines (hk : later.kind = d.kind) (h : Index.Refines d.fields later.fields)
    (hs : d.Settles r) : (later.documentRows r).rows = (d.documentRows r).rows ∧ later.Settles r := by
  unfold Settles documentRows at *
  rw [hk]
  cases hd : d.kind with
  | value =>
    simp only [hd] at hs ⊢
    have hall : ∀ f ∈ d.fields, Index.observe r f = f := Index.map_observe_eq_iff.mp hs
    refine ⟨?_, Index.map_observe_eq_iff.mpr (Index.settled_of_refines h hall)⟩
    rw [Index.valueRows_eq, Index.valueRows_eq, Index.arrays_of_refines h, Index.columns_of_refines h hall]
  | text => exact ⟨by rw [Index.textRow_of_refines h], rfl⟩

theorem ids_of_mem_documentRows {row : Row} (h : row ∈ (d.documentRows r).rows) :
    row.docId = r.docId ∧ row.revId = r.revId := by
  unfold documentRows at h
  cases hd : d.kind with
  | value =>
    simp only [hd, Index.valueRows_eq] at h
    split at h
    · simp at h
    · obtain ⟨cells, _, rfl⟩ := List.mem_map.mp h
      exact ⟨rfl, rfl⟩
  | text =>
    simp only [hd, List.mem_singleton] at h
    subst h
    exact ⟨rfl, rfl⟩

end Definition

end DocIndex
