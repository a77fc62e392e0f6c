import DocIndex.Proofs.Index.Table
import DocIndex.Proofs.Query.Compiled
import DocIndex.Proofs.Query.Sets

/-! # What scans find

A scan of a group finds the documents with a row that matches all positive conditions, less those that a
negative condition takes away. The set that a plan is compiled to lists what its scans and searches find.
-/

namespace DocIndex

/-- Whether a cell matches a condition on a field of an index. Nulls match nothing. -/
def Condition.Matches (d : Definition) (path : String) (cell : SqlValue) : Condition → Prop
  | .compare op v => cell.isNull = false ∧ d.admits path v = true ∧ op.admits (cell.order v.cell) = true
  | .oneOf vs => cell.isNull = false ∧ ∃ v ∈ vs, d.admits path v = true ∧ cell.order v.cell = .eq
  | .present _ => cell.isNull = false
  | .not _ => False

def Table.Leaves (t : Table) (d : Definition) (path : String) (id : String) : Condition → Prop
  | .not inner => (∃ r ∈ t.rows, r.docId = id ∧ (t.cellAt d r path).isNull = false) ∧
      ¬ ∃ r ∈ t.rows, r.docId = id ∧ inner.Matches d path (t.cellAt d r path)
  | _ => (∃ r ∈ t.rows, r.docId = id) ∧ ¬ ∃ r ∈ t.rows, r.docId = id ∧ (t.cellAt d r path).isNull = false

theorem Table.Leaves.exists_row {t : Table} {d : Definition} {path id : String} {c : Condition}
    (h : t.Leaves d path id c) (hsign : c.isNegative = true) : ∃ r ∈ t.rows, r.docId = id := by
  cases c with
  | not inner =>
    obtain ⟨⟨r, hr, hid, _⟩, _⟩ := h
    exact ⟨r, hr, hid⟩
  | present expected => exact h.1
  | compare op v => simp [Condition.isNegative] at hsign
  | oneOf vs => simp [Condition.isNegative] at hsign

structure Table.Finds (t : Table) (d : Definition) (group : List (String × Condition)) (id : String) : Prop where
  row : ∃ r ∈ t.rows, r.docId = id ∧
    ∀ p ∈ group, p.2.isNegative = false → p.2.Matches d p.1 (t.cellAt d r p.1)
  leaves : ∀ p ∈ group, p.2.isNegative = true → t.Leaves d p.1 id p.2

variable {db : Database} {d : Definition} {t : Table} {path : String} {c : Condition}
variable {group : List (String × Condition)}

/-! ## Rows -/

theorem Table.cellAt_eq (hcovers : d.covers path = true) (t : Table) (r : Row) :
    t.cellAt d r path = t.cell r (d.columnOf path) := by
  rw [Table.cellAt, Definition.columnFor?_eq hcovers]
  rfl

namespace Compile

theorem predicate_holds (hcovers : d.covers path = true) (hc : c.Comparing ∨ c = .present true) (t : Table) (r : Row) :
    (predicate d path c).holds t r = true ↔ c.Matches d path (t.cellAt d r path) := by
  rw [Table.cellAt_eq hcovers]
  rcases hc with hc | rfl
  · cases hc with
    | compare op v hv =>
      have hnull := (bind?_ok hv).2
      cases hadmits : d.admits path v <;>
        simp [predicate, Predicate.holds, Condition.Matches, hadmits, hnull]
    | oneOf vs hvs =>
      simp only [predicate]
      cases hlist : (vs.filter (d.admits path)).map Json.cell with
      | nil =>
        rw [List.map_eq_nil_iff, List.filter_eq_nil_iff] at hlist
        simp only [choice, Predicate.holds, Condition.Matches, Bool.false_eq_true, false_iff]
        rintro ⟨_, v, hv, hadmits, _⟩
        exact hlist v hv hadmits
      | cons w ws =>
        rw [choice, ← hlist]
        simp only [Predicate.holds, Condition.Matches, Bool.and_eq_true, Bool.not_eq_true', List.any_map,
          List.any_eq_true, List.mem_filter, Function.comp_apply, beq_iff_eq]
        constructor
        · rintro ⟨hcell', v, ⟨hv, hadmits⟩, _, horder⟩
          exact ⟨hcell', v, hv, hadmits, horder⟩
        · rintro ⟨hcell', v, hv, hadmits, horder⟩
          exact ⟨hcell', v, ⟨hv, hadmits⟩, (bind?_ok (hvs v hv)).2, horder⟩
  · simp [predicate, Predicate.holds, Condition.Matches]

theorem predicates_hold (h : d.Takes group) (hsign : ∀ p ∈ group, p.2.isNegative = false) (t : Table) (r : Row) :
    (∀ q ∈ group.map (fun p => predicate d p.1 p.2), q.holds t r = true) ↔
      ∀ p ∈ group, p.2.Matches d p.1 (t.cellAt d r p.1) := by
  rw [List.forall_mem_map]
  refine forall₂_congr fun p hp => ?_
  exact predicate_holds (h.covers p hp) ((h.requested p hp).positive (hsign p hp)) t r

end Compile

/-! ## Sets of a scan -/

section

variable (ht : db.table? d.tableName = .ok t) (hrows : t.rows? = .ok t.rows)

include ht hrows

theorem Compile.negative_lists (hcovers : d.covers path = true) (hc : c.Requested) (hn : c.isNegative = true) :
    (negative d path c).Lists db fun id => t.Leaves d path id c := by
  have hhaving : (IdSet.rows d.tableName [.present (d.columnOf path)]).Lists db fun id =>
      ∃ r ∈ t.rows, r.docId = id ∧ (t.cellAt d r path).isNull = false := by
    refine (IdSet.lists_rows ht hrows _).congr fun id => ?_
    simp [Predicate.holds, Table.cellAt_eq hcovers]
  rcases hc.negative hn with rfl | ⟨inner, hinner, rfl⟩
  · refine ((IdSet.lists_rows ht hrows []).without hhaving).congr fun id => ?_
    simp [Table.Leaves]
  · refine (hhaving.without (IdSet.lists_rows ht hrows [predicate d path inner])).congr fun id => ?_
    simp [Table.Leaves, predicate_holds hcovers (Or.inl hinner)]

theorem Compile.negatives_list (h : d.Takes group) (hn : ∀ p ∈ group, p.2.isNegative = true) :
    List.Forall₂ (fun s q => IdSet.Lists db s q) (group.map fun p => negative d p.1 p.2)
      (group.map fun p id => t.Leaves d p.1 id p.2) := by
  induction group with
  | nil => exact .nil
  | cons p rest ih =>
    obtain ⟨⟨hcovers, hrequested⟩, hrest⟩ := Definition.takes_cons.mp h
    exact .cons (negative_lists ht hrows hcovers hrequested (hn p List.mem_cons_self))
      (ih hrest fun q hq => hn q (List.mem_cons_of_mem _ hq))

theorem Compile.scan_lists (h : d.Takes group) : (scan d group).Lists db (t.Finds d group) := by
  have hpositive : ∀ p ∈ group.filter (!·.2.isNegative), p.2.isNegative = false :=
    fun p hp => by simpa using (List.mem_filter.mp hp).2
  have hnegative : ∀ p ∈ group.filter (·.2.isNegative), p ∈ group ∧ p.2.isNegative = true :=
    fun p hp => List.mem_filter.mp hp
  have hholds := predicates_hold (h.filter (!·.2.isNegative)) hpositive t
  have hlists := negatives_list ht hrows (h.filter (·.2.isNegative)) fun p hp => (hnegative p hp).2
  have hrow := IdSet.lists_rows ht hrows ((group.filter (!·.2.isNegative)).map fun p => predicate d p.1 p.2)
  unfold scan
  simp only
  by_cases hnone : ((group.filter (!·.2.isNegative)).isEmpty && !(group.filter (·.2.isNegative)).isEmpty) = true
  · simp only [hnone, if_true, List.nil_append]
    rw [Bool.and_eq_true, Bool.not_eq_true', List.isEmpty_iff, List.isEmpty_eq_false_iff_exists_mem] at hnone
    obtain ⟨hnopositive, n, hn⟩ := hnone
    have hne : (group.filter (·.2.isNegative)).map (fun p => negative d p.1 p.2) ≠ [] :=
      List.ne_nil_of_mem (List.mem_map_of_mem hn)
    refine (IdSet.lists_intersect hne hlists).congr fun id => ?_
    rw [List.forall_mem_map]
    constructor
    · intro hall
      refine ⟨?_, fun p hp hsign => hall p (List.mem_filter.mpr ⟨hp, hsign⟩)⟩
      have hsign := (hnegative n hn).2
      obtain ⟨r, hr, hid⟩ := (hall n hn).exists_row hsign
      refine ⟨r, hr, hid, fun p hp hsign => ?_⟩
      have hmem : p ∈ group.filter (!·.2.isNegative) := List.mem_filter.mpr ⟨hp, by simp [hsign]⟩
      rw [hnopositive] at hmem
      simp at hmem
    · exact fun h p hp => h.leaves p (hnegative p hp).1 (hnegative p hp).2
  · simp only [hnone, Bool.false_eq_true, if_false]
    refine (IdSet.lists_intersect (List.cons_ne_nil _ _) (List.Forall₂.cons hrow hlists)).congr fun id => ?_
    rw [List.forall_mem_cons, List.forall_mem_map]
    simp only [hholds, List.mem_filter, and_imp, Bool.not_eq_true']
    exact ⟨fun h => ⟨h.1, h.2⟩, fun h => ⟨h.row, h.leaves⟩⟩

end

/-! ## Searches -/

theorem Table.mem_of_matching {search : String} {rows : List Row} {r : Row} (hrows : t.rows? = .ok t.rows)
    (h : t.matching? search = .ok rows) (hr : r ∈ rows) : r ∈ t.rows := by
  have hknown : t.known = t.rows := by
    obtain ⟨_, _, hknown⟩ := ok_of_bind hrows
    exact Except.ok.inj hknown
  unfold matching? at h
  cases hform : t.form with
  | ordinary =>
    simp only [hform] at h
    split at h
    · rw [← Except.ok.inj h] at hr
      exact absurd hr List.not_mem_nil
    · cases h
  | fullText f =>
    simp only [hform] at h
    split at h
    · cases h
    · obtain ⟨_, _, h⟩ := ok_of_bind h
      rw [← Except.ok.inj h, hknown] at hr
      exact (List.mem_filter.mp hr).1

/-! ## Whole plans -/

structure Database.Serves (db : Database) (d : Definition) (group : List (String × Condition)) : Prop where
  table : ∃ t, db.table? d.tableName = .ok t ∧ t.rows? = .ok t.rows
  covers : ∀ p ∈ group, d.covers p.1 = true
  requested : ∀ p ∈ group, p.2.Requested

def Database.Accepts (db : Database) (d : Definition) (search : String) : Prop :=
  ∃ t rows, db.table? d.tableName = .ok t ∧ t.matching? search = .ok rows

def Database.Scans (db : Database) (id : String) (d : Definition) (group : List (String × Condition)) : Prop :=
  ∃ t, db.table? d.tableName = .ok t ∧ t.Finds d group id

def Database.Matches (db : Database) (id : String) (d : Definition) (search : String) : Prop :=
  ∃ t rows, db.table? d.tableName = .ok t ∧ t.matching? search = .ok rows ∧ ∃ r ∈ rows, r.docId = id

namespace Compile

open PlanNode

mutual

theorem node_lists : ∀ {n : PlanNode}, n.Uses db.Serves db.Accepts →
    (node n).Lists db fun id => n.Finds (db.Scans id) (db.Matches id)
  | .scan d group, hn => by
    obtain ⟨t, ht, hrows⟩ := hn.table
    refine (scan_lists ht hrows ⟨hn.covers, hn.requested⟩).congr fun id => ?_
    constructor
    · exact fun h => ⟨t, ht, h⟩
    · rintro ⟨u, hu, h⟩
      rw [ht] at hu
      rwa [Except.ok.inj hu]
  | .text d search, hn => by
    obtain ⟨t, rows, ht, hrows⟩ := hn
    refine (IdSet.lists_matching ht hrows).congr fun id => ?_
    constructor
    · exact fun h => ⟨t, rows, ht, hrows, h⟩
    · rintro ⟨u, found, hu, hfound, h⟩
      rw [ht] at hu
      rw [← Except.ok.inj hu, hrows] at hfound
      rwa [Except.ok.inj hfound]
  | .and parts, hn => by
    have hlists := nodes_list hn.2
    have hne : nodes parts ≠ [] := by
      intro hnone
      rw [hnone, List.forall₂_nil_left_iff, List.map_eq_nil_iff] at hlists
      exact hn.1 hlists
    refine (IdSet.lists_intersect hne hlists).congr fun id => ?_
    rw [List.forall_mem_map, Finds, allFind_iff]
  | .or parts, hn => by
    refine (IdSet.lists_union (nodes_list hn)).congr fun id => ?_
    rw [Finds, anyFinds_iff]
    simp only [List.mem_map, exists_exists_and_eq_and]

theorem nodes_list : ∀ {ns : List PlanNode}, AllUse db.Serves db.Accepts ns →
    List.Forall₂ (fun s q => IdSet.Lists db s q) (nodes ns) (ns.map fun n id => n.Finds (db.Scans id) (db.Matches id))
  | [], _ => .nil
  | _ :: _, hns => .cons (node_lists hns.1) (nodes_list hns.2)

end

end Compile

end DocIndex
