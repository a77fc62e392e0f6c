import DocIndex.Proofs.Query.Requested
import Mathlib.Data.List.Basic

/-! # The grammar of selectors

A selector is an object of clauses: conjunctions, alternatives, searches, and fields with what is asked of them. The
grammar is written down by cases on the request form, and a reader accepts just what it derives. What is read is in
normal form, which planner and compiler rely on: no alternative is without parts, no search is part of one, and negation
stands before comparisons and lists only.
-/

namespace DocIndex

/-! ## Paths -/

namespace Path

/-- Segments with dots between them, none of them empty or with a dollar sign in front. -/
def IsDotted (path : String) : Prop :=
  ∃ segments : List (List Char), segments ≠ [] ∧ path.toList = ['.'].intercalate segments ∧
    ∀ s ∈ segments, s ≠ [] ∧ '.' ∉ s ∧ s.head? ≠ some '$'

theorem splitDots_eq (cs : List Char) : splitDots cs = cs.splitOn '.' := by
  induction cs with
  | nil => rfl
  | cons c rest ih =>
    have hsplit : (c :: rest).splitOn '.' =
        if c = '.' then [] :: rest.splitOn '.' else (rest.splitOn '.').modifyHead (c :: ·) := by
      simp [List.splitOn, List.splitOnP_cons_eq_if_modifyHead]
    rw [splitDots, hsplit, ← ih]
    split
    · rfl
    · cases hpieces : splitDots rest with
      | nil => exact absurd hpieces (splitDots_ne_nil rest)
      | cons piece pieces => rfl

theorem notMem_of_mem_splitDots {cs piece : List Char} (h : piece ∈ splitDots cs) : '.' ∉ piece := by
  induction cs generalizing piece with
  | nil =>
    rw [splitDots, List.mem_singleton] at h
    simp [h]
  | cons c rest ih =>
    rw [splitDots] at h
    split at h
    · rcases List.mem_cons.mp h with rfl | h
      · simp
      · exact ih h
    · rename_i hdot
      cases hpieces : splitDots rest with
      | nil => exact absurd hpieces (splitDots_ne_nil rest)
      | cons first pieces =>
        simp only [hpieces] at h ih
        rcases List.mem_cons.mp h with rfl | h
        · rw [List.mem_cons, not_or]
          exact ⟨fun heq => hdot heq.symm, ih List.mem_cons_self⟩
        · exact ih (List.mem_cons_of_mem _ h)

theorem isValid_iff (path : String) : isValid path = true ↔ IsDotted path := by
  have hparts : isValid path = true ↔ ∀ s ∈ splitDots path.toList, s ≠ [] ∧ s.head? ≠ some '$' := by
    unfold isValid
    rw [Bool.and_eq_true, List.all_eq_true]
    simp only [Bool.and_eq_true, Bool.not_eq_true', List.isEmpty_eq_false_iff, bne_iff_ne]
    refine and_iff_right_of_imp fun h => ?_
    rw [← Bool.not_eq_true, String.isEmpty_iff]
    rintro rfl
    exact (h [] (List.mem_singleton_self _)).1 rfl
  rw [hparts]
  constructor
  · intro h
    refine ⟨splitDots path.toList, splitDots_ne_nil _, ?_, fun s hs => ?_⟩
    · rw [splitDots_eq, List.intercalate_splitOn]
    · exact ⟨(h s hs).1, notMem_of_mem_splitDots hs, (h s hs).2⟩
  · rintro ⟨segments, hne, hpath, hsegments⟩ s hs
    rw [splitDots_eq, hpath, List.splitOn_intercalate '.' (fun s hs => (hsegments s hs).2.1) hne] at hs
    exact ⟨(hsegments s hs).1, (hsegments s hs).2.2⟩

end Path

/-! ## Request forms -/

namespace Json

/-- An operator on a field, with its operand. -/
inductive IsOperator : String → Json → Prop where
  | comparison {key : String} {v : Json} (hkey : key ∈ ["$eq", "$ne", "$lt", "$lte", "$gt", "$gte"])
      (hv : v.isComparable = true) : IsOperator key v
  | list {key : String} {items : List Json} (hkey : key ∈ ["$in", "$nin"])
      (hitems : ∀ v ∈ items, v.isComparable = true) : IsOperator key (.array items)
  | presence (expected : Bool) : IsOperator "$exists" (.bool expected)
  | negation {key : String} {v : Json} (h : IsOperator key v) : IsOperator "$not" (.object [(key, v)])

/-- What a field can be asked for: to be equal to a scalar, or to satisfy operators. -/
inductive IsTest : Json → Prop where
  | scalar {v : Json} (hv : v.isComparable = true) : IsTest v
  | operators {members : List (String × Json)} (hne : members ≠ []) (h : ∀ m ∈ members, IsOperator m.1 m.2) :
      IsTest (.object members)

mutual

/-- The request form of a selector, which may be part of an alternative. -/
inductive IsSelector : Bool → Json → Prop where
  | object {underOr : Bool} {members : List (String × Json)} (h : ∀ m ∈ members, IsClause underOr m.1 m.2) :
      IsSelector underOr (.object members)

/-- An entry of a selector. -/
inductive IsClause : Bool → String → Json → Prop where
  | conjunction {underOr : Bool} {items : List Json} (h : ∀ v ∈ items, IsSelector underOr v) :
      IsClause underOr "$and" (.array items)
  | alternatives {underOr : Bool} {items : List Json} (hne : items ≠ []) (h : ∀ v ∈ items, IsSelector true v) :
      IsClause underOr "$or" (.array items)
  | search (terms : String) : IsClause false "$text" (.object [("$search", .string terms)])
  | field {underOr : Bool} {path : String} {v : Json} (hkey : isOperatorKey path = false)
      (hpath : Path.IsDotted path) (h : IsTest v) : IsClause underOr path v

end

variable {underOr : Bool} {key : String} {v : Json}

theorem isClause_iff : v.IsClause underOr key ↔
    (key = "$and" ∧ ∃ items, v = .array items ∧ ∀ w ∈ items, w.IsSelector underOr) ∨
    (key = "$or" ∧ ∃ items, v = .array items ∧ items ≠ [] ∧ ∀ w ∈ items, w.IsSelector true) ∨
    (key = "$text" ∧ underOr = false ∧ ∃ terms, v = .object [("$search", .string terms)]) ∨
    (isOperatorKey key = false ∧ Path.IsDotted key ∧ v.IsTest) := by
  constructor
  · rintro (h | ⟨hne, h⟩ | terms | ⟨hkey, hpath, h⟩)
    · exact Or.inl ⟨rfl, _, rfl, h⟩
    · exact Or.inr (Or.inl ⟨rfl, _, rfl, hne, h⟩)
    · exact Or.inr (Or.inr (Or.inl ⟨rfl, rfl, terms, rfl⟩))
    · exact Or.inr (Or.inr (Or.inr ⟨hkey, hpath, h⟩))
  · rintro (⟨rfl, items, rfl, h⟩ | ⟨rfl, items, rfl, hne, h⟩ | ⟨rfl, rfl, terms, rfl⟩ | ⟨hkey, hpath, h⟩)
    · exact .conjunction h
    · exact .alternatives hne h
    · exact .search terms
    · exact .field hkey hpath h

end Json

/-! ## Operators -/

namespace Condition

variable {path key : String} {v : Json}

theorem succeeds_operand? : Succeeds (operand? path v) ↔ v.isComparable = true := by
  unfold operand?
  split
  · exact iff_of_true (succeeds_ok _) ‹_›
  · refine iff_of_false ?_ ‹_›
    split <;> exact not_succeeds_error _

theorem succeeds_operands? {items : List Json} :
    Succeeds (operands? path items) ↔ ∀ v ∈ items, v.isComparable = true := by
  induction items with
  | nil => exact iff_of_true (succeeds_ok _) (by simp)
  | cons v rest ih =>
    have hv : Succeeds (operand? path v) ↔ v.isComparable = true := succeeds_operand?
    rw [operands?, List.forall_mem_cons, ← ih, ← hv, succeeds_bind]
    simp only [succeeds_bind_total fun _ => succeeds_ok _]
    exact exists_and_right

theorem succeeds_comparison? {op : Operator} : Succeeds (comparison? path op v) ↔ v.isComparable = true := by
  rw [comparison?, succeeds_map, succeeds_operand?]

theorem succeeds_membership? :
    Succeeds (membership? path key v) ↔ ∃ items, v = .array items ∧ ∀ w ∈ items, w.isComparable = true := by
  unfold membership?
  split
  · rename_i items
    rw [succeeds_map, succeeds_operands?]
    simp
  · rename_i hv
    refine iff_of_false (not_succeeds_error _) ?_
    rintro ⟨items, rfl, _⟩
    exact hv items rfl

theorem isOperatorKey_of_isOperator (h : Json.IsOperator key v) : isOperatorKey key = true := by
  cases h with
  | comparison hkey _ => revert key; decide
  | list hkey _ => revert key; decide
  | presence expected => decide
  | negation h => decide

theorem isOperator_of_ofJson? (path : String) : ∀ (key : String) (v : Json), Succeeds (ofJson? path key v) →
    Json.IsOperator key v
  | key, v => by
    have hlist : key ∈ ["$in", "$nin"] → Succeeds (membership? path key v) → Json.IsOperator key v := by
      intro hkey h
      obtain ⟨items, rfl, hitems⟩ := succeeds_membership?.mp h
      exact .list hkey hitems
    rw [ofJson?.eq_def]
    refine succeeds_ite ?_ ?_
    · rintro rfl h
      exact .comparison (by decide) (succeeds_comparison?.mp h)
    refine succeeds_ite ?_ ?_
    · rintro rfl h
      exact .comparison (by decide) (succeeds_comparison?.mp h)
    refine succeeds_ite ?_ ?_
    · rintro rfl h
      exact .comparison (by decide) (succeeds_comparison?.mp h)
    refine succeeds_ite ?_ ?_
    · rintro rfl h
      exact .comparison (by decide) (succeeds_comparison?.mp h)
    refine succeeds_ite ?_ ?_
    · rintro rfl h
      exact .comparison (by decide) (succeeds_comparison?.mp h)
    refine succeeds_ite ?_ ?_
    · rintro rfl h
      exact .comparison (by decide) (succeeds_comparison?.mp (succeeds_map.mp h))
    refine succeeds_ite ?_ ?_
    · rintro rfl h
      exact hlist (by decide) h
    refine succeeds_ite ?_ ?_
    · rintro rfl h
      exact hlist (by decide) (succeeds_map.mp h)
    refine succeeds_ite ?_ ?_
    · rintro rfl h
      split at h
      · exact .presence _
      · exact (not_succeeds_error _ h).elim
    refine succeeds_ite ?_ fun h => (not_succeeds_error _ h).elim
    rintro rfl h
    split at h
    · rename_i inner w
      revert h
      refine succeeds_ite (fun _ h => ?_) fun h => (not_succeeds_error _ h).elim
      exact .negation (isOperator_of_ofJson? path inner w (succeeds_map.mp h))
    · exact (not_succeeds_error _ h).elim
    · exact (not_succeeds_error _ h).elim

theorem succeeds_ofJson?_of_isOperator (path : String) (h : Json.IsOperator key v) :
    Succeeds (ofJson? path key v) := by
  induction h with
  | comparison hkey hv =>
    simp only [List.mem_cons, List.not_mem_nil, or_false] at hkey
    rw [ofJson?.eq_def]
    rcases hkey with rfl | rfl | rfl | rfl | rfl | rfl <;> simp [succeeds_map, succeeds_comparison?, hv]
  | @list key items hkey hitems =>
    have hmembership : ∀ key, Succeeds (membership? path key (.array items)) :=
      fun _ => succeeds_membership?.mpr ⟨_, rfl, hitems⟩
    simp only [List.mem_cons, List.not_mem_nil, or_false] at hkey
    rcases hkey with rfl | rfl <;> simp [ofJson?, succeeds_map, hmembership]
  | presence expected => simp [ofJson?, succeeds_ok]
  | negation h ih => simp [ofJson?, isOperatorKey_of_isOperator h, succeeds_map, ih]

theorem succeeds_ofJson? : Succeeds (ofJson? path key v) ↔ Json.IsOperator key v :=
  ⟨isOperator_of_ofJson? path key v, succeeds_ofJson?_of_isOperator path⟩

end Condition

/-! ## Selectors -/

namespace Selector

variable {path key : String} {v : Json} {underOr : Bool} {items : List Json} {members : List (String × Json)}

theorem succeeds_conditions? :
    Succeeds (conditions? path members) ↔ ∀ m ∈ members, Json.IsOperator m.1 m.2 := by
  induction members with
  | nil => exact iff_of_true (succeeds_ok _) (by simp)
  | cons m rest ih =>
    have hm : Succeeds (Condition.ofJson? path m.1 m.2) ↔ Json.IsOperator m.1 m.2 := Condition.succeeds_ofJson?
    rw [conditions?, List.forall_mem_cons, ← ih, ← hm, succeeds_bind]
    simp only [succeeds_bind_total fun _ => succeeds_ok _]
    exact exists_and_right

theorem succeeds_field? : Succeeds (field? path v) ↔ v.IsTest := by
  unfold field?
  split
  · rename_i members
    split
    · rename_i hguard
      refine iff_of_false (not_succeeds_error _) ?_
      rintro (hv | ⟨hne, h⟩)
      · cases hv
      · rw [Bool.or_eq_true, List.isEmpty_iff, Bool.not_eq_true', List.all_eq_false] at hguard
        rcases hguard with hnil | ⟨m, hm, hkey⟩
        · exact hne hnil
        · exact hkey (Condition.isOperatorKey_of_isOperator (h m hm))
    · rename_i hguard
      rw [succeeds_bind_total fun _ => succeeds_ok _, succeeds_conditions?]
      rw [Bool.or_eq_true, not_or, List.isEmpty_iff] at hguard
      constructor
      · exact fun h => .operators hguard.1 h
      · rintro (hv | ⟨_, h⟩)
        · cases hv
        · exact h
  · rename_i hv
    rw [succeeds_map, Condition.succeeds_comparison?]
    constructor
    · exact fun h => .scalar h
    · rintro (h | ⟨_, _⟩)
      · exact h
      · exact absurd rfl (hv _)

theorem succeeds_search? : Succeeds (search? v) ↔ ∃ terms, v = .object [("$search", .string terms)] := by
  unfold search?
  split
  · exact iff_of_true (succeeds_ok _) ⟨_, rfl⟩
  · rename_i hv
    refine iff_of_false (not_succeeds_error _) ?_
    rintro ⟨terms, rfl⟩
    exact hv terms rfl

theorem succeeds_checkPath : Succeeds (checkPath path) ↔ Path.IsDotted path := by
  rw [← Path.isValid_iff]
  unfold checkPath
  split
  · exact iff_of_true (succeeds_ok _) ‹_›
  · exact iff_of_false (not_succeeds_error _) ‹_›

theorem succeeds_clause?_of
    (hitems : ∀ underOr items, v = .array items →
      (Succeeds (items? underOr items) ↔ ∀ w ∈ items, w.IsSelector underOr)) :
    Succeeds (clause? underOr key v) ↔ v.IsClause underOr key := by
  have hand : isOperatorKey "$and" = true := by decide
  have hor : isOperatorKey "$or" = true := by decide
  have htext : isOperatorKey "$text" = true := by decide
  rw [Json.isClause_iff]
  unfold clause?
  split
  · rename_i hkey
    subst hkey
    simp only [hand, Bool.true_eq_false, false_and, or_false, true_and, String.reduceEq]
    split
    · rename_i items
      rw [succeeds_bind_total fun _ => succeeds_ok _, hitems underOr items rfl]
      simp
    · rename_i hv
      refine iff_of_false (not_succeeds_error _) ?_
      rintro ⟨items, rfl, _⟩
      exact hv items rfl
  split
  · rename_i hkey
    subst hkey
    simp only [hor, Bool.true_eq_false, false_and, or_false, false_or, true_and, String.reduceEq]
    split
    · rename_i items
      rw [succeeds_bind]
      constructor
      · rintro ⟨parts, hparts, h⟩
        refine ⟨items, rfl, ?_, (hitems true items rfl).mp ⟨parts, hparts⟩⟩
        rintro rfl
        obtain rfl := List.eq_nil_of_length_eq_zero (items?_length hparts)
        exact not_succeeds_error _ h
      · rintro ⟨_, ⟨⟩, hne, hall⟩
        obtain ⟨parts, hparts⟩ := (hitems true items rfl).mpr hall
        refine ⟨parts, hparts, ?_⟩
        rw [if_neg]
        · exact succeeds_ok _
        · rw [List.isEmpty_iff, ← List.length_eq_zero_iff, items?_length hparts, List.length_eq_zero_iff]
          exact hne
    · rename_i hv
      refine iff_of_false (not_succeeds_error _) ?_
      rintro ⟨items, rfl, _⟩
      exact hv items rfl
  split
  · rename_i hkey
    subst hkey
    simp only [htext, Bool.true_eq_false, false_and, or_false, false_or, true_and, String.reduceEq]
    cases underOr with
    | false => simp [succeeds_search?]
    | true => simp [not_succeeds_error]
  rename_i hand' hor' htext'
  simp only [hand', hor', htext', false_and, false_or]
  split
  · rename_i hoperator
    simp [hoperator, not_succeeds_error]
  · rename_i hoperator
    have hv : Succeeds (field? key v) ↔ v.IsTest := succeeds_field?
    rw [succeeds_bind, Bool.eq_false_iff, ← succeeds_checkPath, ← hv]
    exact exists_and_right.trans (and_iff_right hoperator).symm

mutual

theorem succeeds_read? : ∀ (v : Json) (underOr : Bool), Succeeds (read? underOr v) ↔ v.IsSelector underOr
  | .object members, underOr => by
    rw [read?, succeeds_bind_total fun _ => succeeds_ok _, succeeds_clauses? members underOr]
    exact ⟨fun h => .object h, fun ⟨h⟩ => h⟩
  | .null, _ | .bool _, _ | .number _, _ | .string _, _ | .array _, _ => by
    rw [read?]
    · exact iff_of_false (not_succeeds_error _) nofun
    · nofun

theorem succeeds_clauses? : ∀ (members : List (String × Json)) (underOr : Bool),
    Succeeds (clauses? underOr members) ↔ ∀ m ∈ members, m.2.IsClause underOr m.1
  | [], underOr => iff_of_true (succeeds_ok _) (by simp)
  | (key, v) :: rest, underOr => by
    rw [clauses?, List.forall_mem_cons, ← succeeds_clauses? rest underOr, ← succeeds_clause? v underOr key,
      succeeds_bind]
    simp only [succeeds_bind_total fun _ => succeeds_ok _]
    exact exists_and_right

theorem succeeds_clause? : ∀ (v : Json) (underOr : Bool) (key : String),
    Succeeds (clause? underOr key v) ↔ v.IsClause underOr key
  | .array items, _, _ => succeeds_clause?_of fun u _ heq => by
    rw [← Json.array.inj heq]
    exact succeeds_items? items u
  | .null, _, _ | .bool _, _, _ | .number _, _, _ | .string _, _, _ | .object _, _, _ =>
    succeeds_clause?_of fun _ _ heq => Json.noConfusion heq

theorem succeeds_items? : ∀ (items : List Json) (underOr : Bool),
    Succeeds (items? underOr items) ↔ ∀ v ∈ items, v.IsSelector underOr
  | [], underOr => iff_of_true (succeeds_ok _) (by simp)
  | v :: rest, underOr => by
    rw [items?, List.forall_mem_cons, ← succeeds_items? rest underOr, ← succeeds_read? v underOr, succeeds_bind]
    simp only [succeeds_bind_total fun _ => succeeds_ok _]
    exact exists_and_right

end

/-- A selector is read from just those values that the grammar derives. All else is an invalid query, and what is read
is in normal form. -/
theorem ofJson?_iff_isSelector (v : Json) :
    ((∃ s, ofJson? v = .ok s) ↔ v.IsSelector false) ∧
    (∀ e, ofJson? v = .error e → ∃ fault, e = .invalidQuery fault) ∧
    ∀ s, ofJson? v = .ok s → s.IsNormal false := by
  refine ⟨?_, fun e he => ?_, fun s hs => ofJson?_normal hs⟩
  · exact succeeds_mapError.trans (succeeds_read? v false)
  · unfold ofJson? at he
    cases hread : read? false v with
    | ok s =>
      rw [hread] at he
      cases he
    | error fault =>
      rw [hread] at he
      exact ⟨fault, (Except.error.inj he).symm⟩

/-- Alternatives, one of them with negations inside each other and one that is a conjunction. -/
def nested : Json :=
  .object [("$or", .array [
    .object [("age", .object [("$not", .object [("$not", .object [("$nin", .array [.int 3, .string "x"])])])])],
    .object [("$and", .array []), ("pet.name", .string "rex")]])]

/-- A search inside a conjunction that is an alternative. -/
def hidden : Json :=
  .object [("$or", .array [.object [("$and", .array [.object [("$text", .object [("$search", .string "tall")])]])]])]

theorem ofJson?_iff_isSelector_nested :
    (nested.IsSelector false ∧ ∃ s, ofJson? nested = .ok s ∧ s.IsNormal false) ∧
    ¬ hidden.IsSelector false ∧ ∃ fault, ofJson? hidden = .error (.invalidQuery fault) := by
  obtain ⟨haccepts, _, hnormal⟩ := ofJson?_iff_isSelector nested
  obtain ⟨hrejects, hfault, _⟩ := ofJson?_iff_isSelector hidden
  have hread : ∃ s, ofJson? nested = .ok s := ⟨_, rfl⟩
  obtain ⟨s, hs⟩ := hread
  have hrefused : ofJson? hidden = .error (.invalidQuery .textUnderOr) := rfl
  obtain ⟨fault, hfault⟩ := hfault _ hrefused
  refine ⟨⟨haccepts.mp ⟨s, hs⟩, s, hs, hnormal s hs⟩, fun h => ?_, fault, by rw [hrefused, hfault]⟩
  obtain ⟨s, hs⟩ := hrejects.mpr h
  rw [hrefused] at hs
  cases hs

end Selector

end DocIndex
