import DocIndex.Proofs.Index.Rows

/-! # What an index holds

The content of an index is its definition with the rows of its table. Absorbing a change replaces the
rows of one document; the rows of all others stay those of the revisions they were made from.
-/

namespace DocIndex

/-- An index as it is defined, with the rows of its table. -/
structure Content where
  definition : Definition
  rows : List Row

namespace Content

variable {x : Content} {r q : Revision} {id : String}

def name (x : Content) : String := x.definition.name

def rowsOf (x : Content) (id : String) : List Row := x.rows.filter (·.docId == id)

def absorb (x : Content) (r : Revision) : Content :=
  let kept := x.rows.filter (·.docId != r.docId)
  if r.deleted then { x with rows := kept }
  else { definition := x.definition.settled r, rows := kept ++ (x.definition.documentRows r).rows }

def absorbAll (x : Content) (changes : List Revision) : Content := changes.foldl absorb x

/-- The rows of a document are those of this revision, and will be under all types to come. -/
structure Represents (x : Content) (r : Revision) : Prop where
  rows_eq : x.rowsOf r.docId = x.definition.rowsFor r
  settles : r.deleted = false → x.definition.Settles r

/-! ## One change -/

theorem filter_of_not_mem (rows : List Row) (h : id ≠ r.docId) :
    (rows.filter (·.docId != r.docId)).filter (·.docId == id) = rows.filter (·.docId == id) := by
  rw [List.filter_filter]
  refine List.filter_congr fun row _ => ?_
  by_cases hid : row.docId = id
  · simp [hid, h]
  · simp [hid]

theorem rowsOf_absorb_of_ne (x : Content) (h : id ≠ r.docId) : (x.absorb r).rowsOf id = x.rowsOf id := by
  unfold absorb rowsOf
  split
  · exact filter_of_not_mem x.rows h
  · have hnone : (x.definition.documentRows r).rows.filter (·.docId == id) = [] := by
      rw [List.filter_eq_nil_iff]
      intro row hrow heq
      rw [(Definition.ids_of_mem_documentRows hrow).1] at heq
      exact h (beq_iff_eq.mp heq).symm
    simp only [List.filter_append, hnone, List.append_nil]
    exact filter_of_not_mem x.rows h

theorem absorb_kind (x : Content) (r : Revision) : (x.absorb r).definition.kind = x.definition.kind := by
  unfold absorb
  split <;> rfl

theorem absorb_name (x : Content) (r : Revision) : (x.absorb r).name = x.name := by
  unfold absorb
  split <;> rfl

theorem refines_absorb (x : Content) (r : Revision) :
    Index.Refines x.definition.fields (x.absorb r).definition.fields := by
  unfold absorb
  split
  · exact Index.Refines.refl _
  · exact Definition.refines_settled x.definition r

theorem represents_absorb (x : Content) (r : Revision) : (x.absorb r).Represents r := by
  have hgone : (x.rows.filter (·.docId != r.docId)).filter (·.docId == r.docId) = [] := by
    simp [List.filter_filter]
  cases hd : r.deleted with
  | true =>
    refine ⟨?_, by simp [hd]⟩
    simp only [rowsOf, absorb, hd, if_true, Definition.rowsFor]
    exact hgone
  | false =>
    have hall : (x.definition.documentRows r).rows.filter (·.docId == r.docId) =
        (x.definition.documentRows r).rows := by
      rw [List.filter_eq_self]
      intro row hrow
      simp [(Definition.ids_of_mem_documentRows hrow).1]
    constructor
    · simp only [rowsOf, absorb, hd, Bool.false_eq_true, if_false, Definition.rowsFor, List.filter_append, hgone,
        hall, List.nil_append]
      exact (Definition.documentRows_settled x.definition r).symm
    · intro _
      simp only [absorb, hd, Bool.false_eq_true, if_false]
      exact Definition.settled_settles x.definition r

theorem Represents.of_refines {y : Content} (h : x.Represents q) (hk : y.definition.kind = x.definition.kind)
    (hf : Index.Refines x.definition.fields y.definition.fields) (hrows : y.rowsOf q.docId = x.rowsOf q.docId) :
    y.Represents q := by
  cases hd : q.deleted with
  | true =>
    refine ⟨?_, by simp [hd]⟩
    rw [hrows, h.rows_eq]
    simp [Definition.rowsFor, hd]
  | false =>
    obtain ⟨heq, hset⟩ := Definition.documentRows_of_refines hk hf (h.settles hd)
    refine ⟨?_, fun _ => hset⟩
    rw [hrows, h.rows_eq]
    simp [Definition.rowsFor, hd, heq]

/-! ## All changes of a batch -/

theorem absorbAll_kind (x : Content) (changes : List Revision) :
    (x.absorbAll changes).definition.kind = x.definition.kind := by
  induction changes generalizing x with
  | nil => rfl
  | cons r rest ih => exact (ih (x.absorb r)).trans (absorb_kind x r)

theorem absorbAll_name (x : Content) (changes : List Revision) : (x.absorbAll changes).name = x.name := by
  induction changes generalizing x with
  | nil => rfl
  | cons r rest ih => exact (ih (x.absorb r)).trans (absorb_name x r)

theorem refines_absorbAll (x : Content) (changes : List Revision) :
    Index.Refines x.definition.fields (x.absorbAll changes).definition.fields := by
  induction changes generalizing x with
  | nil => exact Index.Refines.refl _
  | cons r rest ih => exact (refines_absorb x r).trans (ih (x.absorb r))

theorem rowsOf_absorbAll_of_not_mem (x : Content) {changes : List Revision}
    (h : id ∉ changes.map (·.docId)) : (x.absorbAll changes).rowsOf id = x.rowsOf id := by
  induction changes generalizing x with
  | nil => rfl
  | cons r rest ih =>
    rw [List.map_cons, List.mem_cons, not_or] at h
    exact (ih (x.absorb r) h.2).trans (rowsOf_absorb_of_ne x h.1)

theorem Represents.absorbAll_of_not_mem (h : x.Represents q) {changes : List Revision}
    (hq : q.docId ∉ changes.map (·.docId)) : (x.absorbAll changes).Represents q :=
  h.of_refines (absorbAll_kind x changes) (refines_absorbAll x changes) (rowsOf_absorbAll_of_not_mem x hq)

theorem represents_absorbAll {changes : List Revision} (hn : (changes.map (·.docId)).Nodup)
    (hr : r ∈ changes) (x : Content) : (x.absorbAll changes).Represents r := by
  induction changes generalizing x with
  | nil => simp at hr
  | cons c rest ih =>
    rw [List.map_cons, List.nodup_cons] at hn
    rcases List.mem_cons.mp hr with rfl | hr
    · exact (represents_absorb x r).absorbAll_of_not_mem hn.1
    · exact ih hn.2 hr (x.absorb c)

end Content

end DocIndex
