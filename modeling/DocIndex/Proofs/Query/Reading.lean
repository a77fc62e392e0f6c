import DocIndex.Maintenance.ResultSet
import DocIndex.Proofs.Basic
import Mathlib.Data.List.Forall2
import Mathlib.Data.List.ReduceOption

/-! # Results read call by call

An iterator stands before the rows it has not visited. A call looks up one row after the other until one gives a
document or a failure, and passes over the others. Whatever mix of live, stale and failing rows there is, every row
is visited once, in order, and has its own answer; a failure does not end the iteration.
-/

namespace DocIndex

theorem Object.get?_restrict (o : Object) (fields : List String) (key : String) :
    (o.restrict fields).get? key = if key ∈ fields then o.get? key else none := by
  unfold Object.restrict Object.get?
  rw [List.find?_filter]
  split
  · rename_i hkey
    refine congrArg (fun p => (o.find? p).map (·.2)) (funext fun m => ?_)
    by_cases hm : m.1 = key
    · simp [hm, hkey]
    · simp [hm]
  · rename_i hkey
    rw [List.find?_eq_none.mpr, Option.map_none]
    intro m _ hm
    simp only [List.contains_iff_mem, beq_iff_eq, decide_eq_true_eq] at hm
    exact hkey (hm.2 ▸ hm.1)

namespace ResultSet

section

variable (fields? : Option (List String)) (lookup : Lookup)

/-- A revision as it is shown: with all of its body, or only with the fields that are asked for. -/
structure IsProjection (r shown : Revision) : Prop where
  docId : shown.docId = r.docId
  revId : shown.revId = r.revId
  sequence : shown.sequence = r.sequence
  deleted : shown.deleted = r.deleted
  whole : fields? = none → shown.body = r.body
  kept : ∀ fields, fields? = some fields → ∀ key ∈ fields, shown.body.get? key = r.body.get? key
  dropped : ∀ fields, fields? = some fields → ∀ key ∉ fields, shown.body.get? key = none
  sublist : shown.body.Sublist r.body

/-- What a row comes to in an iteration. -/
inductive Yields (row : String × String) : Option (Except QueryError Revision) → Prop where
  | missing (h : lookup row.1 row.2 = .ok none) : Yields row none
  | tombstone {r : Revision} (h : lookup row.1 row.2 = .ok (some r)) (hr : r.deleted = true) : Yields row none
  | failure {e : StoreError} (h : lookup row.1 row.2 = .error e) : Yields row (some (.error (.store e)))
  | live {r shown : Revision} (h : lookup row.1 row.2 = .ok (some r)) (hr : r.deleted = false)
      (hshown : IsProjection fields? r shown) : Yields row (some (.ok shown))

end

variable (s : ResultSet) (lookup : Lookup)

/-- How an iteration goes. The calls visit the rows one after the other and answer with what the rows yield, until all
are visited; all documents are what is yielded, or the first failure; and lookups that agree on the rows are read alike. -/
structure ReadsByRow : Prop where
  visits : ∀ n, (List.range n).flatMap (fun i => (s.call lookup i).visited) ++ s.ahead lookup n = s.rows
  answers : ∀ n, (s.call lookup n).answer? = (s.items lookup)[n]?.map (·.outcome)
  ends : s.ahead lookup ((s.items lookup).length + 1) = []
  yields : ∃ answers, List.Forall₂ (Yields s.fields? lookup) s.rows answers ∧
    (s.items lookup).map (·.outcome) = answers.reduceOption
  succeeds : Succeeds (s.documents lookup) ↔ ∀ row ∈ s.rows, Succeeds (lookup row.1 row.2)
  documents : ∀ docs, s.documents lookup = .ok docs ↔ (s.items lookup).map (·.outcome) = docs.map .ok
  fails : ∀ before row after e, s.rows = before ++ row :: after →
    (∀ earlier ∈ before, Succeeds (lookup earlier.1 earlier.2)) → lookup row.1 row.2 = .error e →
    s.documents lookup = .error (.store e)
  again : ∀ later : Lookup, (∀ row ∈ s.rows, later row.1 row.2 = lookup row.1 row.2) →
    s.items later = s.items lookup

section

variable (fields? : Option (List String)) (lookup : Lookup) (row : String × String) (rows : List (String × String))

/-! ## One row -/

theorem isProjection_shape (r : Revision) : IsProjection fields? r (shape fields? r) := by
  cases fields? with
  | none => exact ⟨rfl, rfl, rfl, rfl, fun _ => rfl, nofun, nofun, List.Sublist.refl _⟩
  | some fields =>
    refine ⟨rfl, rfl, rfl, rfl, nofun, ?_, ?_, List.filter_sublist⟩
    · rintro _ ⟨⟩ key hkey
      exact (Object.get?_restrict _ _ _).trans (if_pos hkey)
    · rintro _ ⟨⟩ key hkey
      exact (Object.get?_restrict _ _ _).trans (if_neg hkey)

theorem succeeds_resolve : Succeeds (resolve fields? lookup row) ↔ Succeeds (lookup row.1 row.2) := by
  unfold resolve
  cases hrow : lookup row.1 row.2 with
  | error e => exact iff_of_false (not_succeeds_error _) (not_succeeds_error _)
  | ok r? => cases r? <;> exact iff_of_true (succeeds_ok _) (succeeds_ok _)

/-- What resolving a row gives, as an answer of the iterator. -/
def answer? : Option (Except QueryError Revision) :=
  match resolve fields? lookup row with
  | .ok r? => r?.map .ok
  | .error e => some (.error e)

theorem yields_answer? : Yields fields? lookup row (answer? fields? lookup row) := by
  unfold answer? resolve
  cases hrow : lookup row.1 row.2 with
  | error e => exact .failure hrow
  | ok r? =>
    cases r? with
    | none => exact .missing hrow
    | some r =>
      cases hr : r.deleted with
      | true =>
        simp only [hr, if_true, Option.map_none]
        exact .tombstone hrow hr
      | false =>
        simp only [hr, Bool.false_eq_true, if_false, Option.map_some]
        exact .live hrow hr (isProjection_shape fields? r)

theorem next_cons : next fields? lookup (row :: rows) =
    match answer? fields? lookup row with
    | some o => ⟨[row], some o, rows⟩
    | none => { next fields? lookup rows with visited := row :: (next fields? lookup rows).visited } := by
  rw [next, answer?]
  cases resolve fields? lookup row with
  | error e => rfl
  | ok r? => cases r? <;> rfl

theorem itemsOf_cons : itemsOf fields? lookup (row :: rows) =
    ((answer? fields? lookup row).map (Item.mk · rows.length)).toList ++ itemsOf fields? lookup rows := by
  rw [itemsOf, answer?]
  cases resolve fields? lookup row with
  | error e => rfl
  | ok r? => cases r? <;> rfl

/-! ## Calls -/

theorem next_visits : (next fields? lookup rows).visited ++ (next fields? lookup rows).ahead = rows := by
  induction rows with
  | nil => rfl
  | cons row rest ih =>
    rw [next_cons]
    cases answer? fields? lookup row with
    | none => exact congrArg (row :: ·) ih
    | some o => rfl

theorem itemsOf_eq_next : itemsOf fields? lookup rows =
    ((next fields? lookup rows).answer?.map (Item.mk · (next fields? lookup rows).ahead.length)).toList ++
      itemsOf fields? lookup (next fields? lookup rows).ahead := by
  induction rows with
  | nil => rfl
  | cons row rest ih =>
    rw [next_cons, itemsOf_cons]
    cases answer? fields? lookup row with
    | none => exact ih
    | some o => rfl

theorem ahead_next_of_none (h : (next fields? lookup rows).answer? = none) :
    (next fields? lookup rows).ahead = [] := by
  induction rows with
  | nil => rfl
  | cons row rest ih =>
    rw [next_cons] at h ⊢
    cases hrow : answer? fields? lookup row with
    | none =>
      rw [hrow] at h
      exact ih h
    | some o =>
      rw [hrow] at h
      cases h

theorem map_outcome_itemsOf : (itemsOf fields? lookup rows).map (·.outcome) =
    (rows.map (answer? fields? lookup)).reduceOption := by
  induction rows with
  | nil => rfl
  | cons row rest ih =>
    rw [itemsOf_cons, List.map_cons, List.map_append, ih]
    cases answer? fields? lookup row with
    | none => rw [List.reduceOption_cons_of_none]; rfl
    | some o => rw [List.reduceOption_cons_of_some]; rfl

theorem itemsOf_congr {later : Lookup} (h : ∀ row ∈ rows, later row.1 row.2 = lookup row.1 row.2) :
    itemsOf fields? later rows = itemsOf fields? lookup rows := by
  induction rows with
  | nil => rfl
  | cons row rest ih =>
    rw [List.forall_mem_cons] at h
    rw [itemsOf, itemsOf, resolve, resolve, h.1, ih h.2]

/-! ## All documents -/

theorem succeeds_outcomes : (∀ item ∈ itemsOf fields? lookup rows, Succeeds item.outcome) ↔
    ∀ row ∈ rows, Succeeds (lookup row.1 row.2) := by
  induction rows with
  | nil => exact iff_of_true nofun nofun
  | cons row rest ih =>
    rw [itemsOf, List.forall_mem_cons, ← succeeds_resolve fields?, ← ih]
    cases resolve fields? lookup row with
    | error e =>
      rw [List.forall_mem_cons]
      exact and_congr_left' (iff_of_false (not_succeeds_error _) (not_succeeds_error _))
    | ok r? =>
      cases r? with
      | none => exact (and_iff_right (succeeds_ok _)).symm
      | some r =>
        rw [List.forall_mem_cons]
        exact and_congr_left' (iff_of_true (succeeds_ok _) (succeeds_ok _))

theorem mapM_outcome_eq_ok (items : List Item) (docs : List Revision) :
    items.mapM (·.outcome) = .ok docs ↔ items.map (·.outcome) = docs.map .ok := by
  induction items generalizing docs with
  | nil => cases docs <;> simp [pure, Except.pure]
  | cons item rest ih =>
    rw [List.mapM_cons, List.map_cons]
    constructor
    · intro h
      obtain ⟨r, hr, h⟩ := ok_of_bind h
      obtain ⟨more, hmore, h⟩ := ok_of_bind h
      obtain rfl := Except.ok.inj h
      rw [hr, (ih more).mp hmore, List.map_cons]
    · intro h
      cases docs with
      | nil => cases h
      | cons r more =>
        obtain ⟨hr, hmore⟩ := List.cons.inj h
        rw [hr, (ih more).mpr hmore]
        rfl

/-- The first failing lookup is what reading all documents ends with. -/
theorem mapM_outcome_eq_error {before after : List (String × String)} {e : StoreError}
    (hbefore : ∀ earlier ∈ before, Succeeds (lookup earlier.1 earlier.2)) (hrow : lookup row.1 row.2 = .error e) :
    (itemsOf fields? lookup (before ++ row :: after)).mapM (·.outcome) = .error (.store e) := by
  induction before with
  | nil =>
    rw [List.nil_append, itemsOf, resolve, hrow]
    rfl
  | cons earlier rest ih =>
    rw [List.forall_mem_cons] at hbefore
    obtain ⟨r?, hr⟩ := (succeeds_resolve fields? lookup earlier).mpr hbefore.1
    rw [List.cons_append, itemsOf, hr]
    cases r? with
    | none => exact ih hbefore.2
    | some r =>
      rw [List.mapM_cons, ih hbefore.2]
      rfl

end

/-! ## The whole iteration -/

theorem visits_ahead (n : Nat) :
    (List.range n).flatMap (fun i => (s.call lookup i).visited) ++ s.ahead lookup n = s.rows := by
  induction n with
  | zero => rfl
  | succ n ih =>
    rw [List.range_succ, List.flatMap_append, List.flatMap_singleton, List.append_assoc]
    exact (congrArg _ (next_visits s.fields? lookup (s.ahead lookup n))).trans ih

theorem itemsOf_ahead (n : Nat) : itemsOf s.fields? lookup (s.ahead lookup n) = (s.items lookup).drop n := by
  induction n with
  | zero => rfl
  | succ n ih =>
    rw [ahead, ← List.drop_drop, ← ih, itemsOf_eq_next s.fields? lookup (s.ahead lookup n)]
    cases hanswer : (next s.fields? lookup (s.ahead lookup n)).answer? with
    | none =>
      rw [ahead_next_of_none _ _ _ hanswer]
      rfl
    | some o => rfl

theorem answer?_call (n : Nat) : (s.call lookup n).answer? = (s.items lookup)[n]?.map (·.outcome) := by
  have hitems := s.itemsOf_ahead lookup n
  rw [itemsOf_eq_next] at hitems
  rw [← List.head?_drop, ← hitems, call]
  cases hanswer : (next s.fields? lookup (s.ahead lookup n)).answer? with
  | none =>
    rw [ahead_next_of_none _ _ _ hanswer]
    rfl
  | some o => rfl

/-- Reading a set of results visits every row once, in order, and each row comes to nothing, to a failure or to its
revision. All documents are read if no lookup fails; otherwise the first failure is reported. Nothing but the lookups
of its rows matters, so that a second iteration over the same store goes as the first. -/
theorem reads_by_row : s.ReadsByRow lookup where
  visits := s.visits_ahead lookup
  answers := s.answer?_call lookup
  ends := by
    refine ahead_next_of_none _ _ _ ((s.answer?_call lookup _).trans ?_)
    rw [List.getElem?_eq_none (Nat.le_refl _), Option.map_none]
  yields := by
    refine ⟨s.rows.map (answer? s.fields? lookup), ?_, map_outcome_itemsOf _ _ _⟩
    exact List.forall₂_map_right_iff.mpr (List.forall₂_same.mpr fun row _ => yields_answer? _ _ row)
  succeeds := succeeds_mapM.trans (succeeds_outcomes s.fields? lookup s.rows)
  documents := mapM_outcome_eq_ok (s.items lookup)
  fails before row after e hrows hbefore hrow := by
    unfold documents items
    rw [hrows]
    exact mapM_outcome_eq_error _ _ row hbefore hrow
  again later h := itemsOf_congr _ _ _ h

end ResultSet

end DocIndex
