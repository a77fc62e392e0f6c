import DocIndex.Proofs.Query.Planning
import Mathlib.Data.Prod.Lex
import Mathlib.Data.String.Basic

/-! # Plans after one more index

One more value index takes over the groups that it has all fields of and is preferred for, and changes
nothing else in a plan. The choice looks at the leading field before it looks at the sort fields, so the new
index can take a sorted query away from the index that orders it.
-/

namespace DocIndex

namespace Planner

namespace Rank

def key (a : Rank) : Bool ×ₗ Bool ×ₗ ℕ ×ₗ String := toLex (a.leadingFree, toLex (a.missesSort, toLex (a.size, a.name)))

theorem isBelow_iff (a b : Rank) : a.isBelow b = true ↔ a.key < b.key := by
  obtain ⟨l, m, n, s⟩ := a
  obtain ⟨l', m', n', s'⟩ := b
  simp only [isBelow, key, Prod.Lex.lt_iff, ofLex_toLex]
  by_cases hl : l = l'
  · by_cases hm : m = m'
    · by_cases hn : n = n'
      · simp [hl, hm, hn]
      · simp [hl, hm, hn]
    · simp only [hl, hm, ne_eq, not_true, if_false, not_false_iff, if_true, lt_irrefl, true_and, false_or, false_and,
        or_false]
      revert hm
      cases m <;> cases m' <;> decide
  · simp only [hl, ne_eq, not_false_iff, if_true, false_and, or_false]
    revert hl
    cases l <;> cases l' <;> decide

end Rank

variable {paths : List String} {sort : List SortKey} {d e : Definition} {before after : List Definition}

/-- The index is a value index with all fields of a group, and is preferred to the one chosen. -/
def prefers (paths : List String) (sort : List SortKey) (d e : Definition) : Bool :=
  paths.all d.covers && (rank paths sort d).isBelow (rank paths sort e)

theorem rank_key_lt_or_gt (hn : ∀ e ∈ after, e.name ≠ d.name) (he : best paths sort after = some e) :
    (rank paths sort d).key < (rank paths sort e).key ∨ (rank paths sort e).key < (rank paths sort d).key := by
  refine lt_or_gt_of_ne fun heq => hn e (best_mem he) ?_
  exact (congrArg (fun k => (ofLex (ofLex (ofLex k).2).2).2) heq).symm

theorem best_insert (hn : ∀ e ∈ before ++ after, e.name ≠ d.name) :
    best paths sort (before ++ d :: after) =
      match best paths sort (before ++ after) with
      | none => some d
      | some e => if (rank paths sort d).isBelow (rank paths sort e) then some d else some e := by
  induction before with
  | nil =>
    simp only [List.nil_append] at hn ⊢
    rw [best]
    cases hbest : best paths sort after with
    | none => rfl
    | some e =>
      simp only [Rank.isBelow_iff]
      rcases rank_key_lt_or_gt hn hbest with hlt | hlt
      · rw [if_pos hlt, if_neg (lt_asymm hlt)]
      · rw [if_neg (lt_asymm hlt), if_pos hlt]
  | cons b before ih =>
    have hn' : ∀ e ∈ before ++ after, e.name ≠ d.name := fun e he => hn e (List.mem_cons_of_mem _ he)
    simp only [List.cons_append]
    rw [best, ih hn', best]
    cases hbest : best paths sort (before ++ after) with
    | none => rfl
    | some e =>
      simp only [Rank.isBelow_iff]
      by_cases hd : (rank paths sort d).key < (rank paths sort e).key
      · by_cases he : (rank paths sort e).key < (rank paths sort b).key
        · simp only [if_pos hd, if_pos he, if_pos (lt_trans hd he)]
        · simp only [if_pos hd, if_neg he]
      · have hed := (rank_key_lt_or_gt hn' hbest).resolve_left hd
        by_cases he : (rank paths sort e).key < (rank paths sort b).key
        · simp only [if_neg hd, if_pos he]
        · have hdb : ¬ (rank paths sort d).key < (rank paths sort b).key := fun hdb => he (lt_trans hed hdb)
          simp only [if_neg hd, if_neg he, if_neg hdb]

theorem candidates_append (paths : List String) (ds es : List Definition) :
    candidates paths (ds ++ es) = candidates paths ds ++ candidates paths es := List.filter_append ..

def switched (d : Definition) (sort : List SortKey) (group : List (String × Condition)) (e : Definition) : Definition :=
  if prefers (constrained group) sort d e then d else e

theorem chooseIndex_insert (hk : d.kind = .value) (hn : ∀ e ∈ before ++ after, e.name ≠ d.name)
    {group : List (String × Condition)} (h : chooseIndex (before ++ after) sort group = .ok e) :
    chooseIndex (before ++ d :: after) sort group = .ok (switched d sort group e) := by
  unfold chooseIndex at h ⊢
  have hbest : best (constrained group) sort (candidates (constrained group) (before ++ after)) = some e := by
    cases hb : best (constrained group) sort (candidates (constrained group) (before ++ after)) with
    | none => simp [hb] at h
    | some b =>
      simp only [hb] at h
      rw [Except.ok.inj h]
  have hnew : best (constrained group) sort (candidates (constrained group) (before ++ d :: after)) =
      some (switched d sort group e) := by
    have hcons : candidates (constrained group) (before ++ d :: after) = candidates (constrained group) before ++
        candidates (constrained group) (d :: after) := candidates_append ..
    by_cases hall : (constrained group).all d.covers = true
    · have hcandidate : candidates (constrained group) (d :: after) = d :: candidates (constrained group) after :=
        List.filter_cons_of_pos (by simp only [hk, hall]; rfl)
      have hn' : ∀ e ∈ candidates (constrained group) before ++ candidates (constrained group) after,
          e.name ≠ d.name := by
        intro e he
        rw [← candidates_append] at he
        exact hn e (List.mem_filter.mp he).1
      rw [candidates_append] at hbest
      rw [hcons, hcandidate, best_insert hn', hbest]
      simp only [switched, prefers, hall, Bool.true_and]
      split <;> rfl
    · have hnone : candidates (constrained group) (d :: after) = candidates (constrained group) after :=
        List.filter_cons_of_neg (by simp only [hk, hall]; simp)
      rw [hcons, hnone, ← candidates_append, hbest]
      simp only [switched, prefers, hall, Bool.false_and, Bool.false_eq_true, if_false]
  simp only [hnew]

end Planner

/-! ## The whole plan -/

namespace PlanNode

mutual

/-- The plan with each group answered by the index that it has after the new one is there. -/
def withIndex (d : Definition) (sort : List SortKey) : PlanNode → PlanNode
  | .scan index conditions => .scan (Planner.switched d sort conditions index) conditions
  | .text index search => .text index search
  | .and parts => .and (withIndexOf d sort parts)
  | .or parts => .or (withIndexOf d sort parts)

def withIndexOf (d : Definition) (sort : List SortKey) : List PlanNode → List PlanNode
  | [] => []
  | n :: rest => n.withIndex d sort :: withIndexOf d sort rest

def groups : PlanNode → List (Definition × List (String × Condition))
  | .scan index conditions => [(index, conditions)]
  | .text _ _ => []
  | .and parts => groupsOf parts
  | .or parts => groupsOf parts

def groupsOf : List PlanNode → List (Definition × List (String × Condition))
  | [] => []
  | n :: rest => n.groups ++ groupsOf rest

end

variable (d : Definition) (sort : List SortKey)

theorem withIndexOf_append (ns ms : List PlanNode) :
    withIndexOf d sort (ns ++ ms) = withIndexOf d sort ns ++ withIndexOf d sort ms := by
  induction ns with
  | nil => rfl
  | cons n rest ih => simp only [List.cons_append, withIndexOf, ih]

mutual

theorem scans_eq_groups : ∀ n : PlanNode, n.scans = n.groups.map (·.1)
  | .scan _ _ => rfl
  | .text _ _ => rfl
  | .and parts => scansOf_eq_groups parts
  | .or parts => scansOf_eq_groups parts

theorem scansOf_eq_groups : ∀ ns : List PlanNode, scansOf ns = (groupsOf ns).map (·.1)
  | [] => rfl
  | n :: rest => by rw [scansOf, groupsOf, List.map_append, scans_eq_groups n, scansOf_eq_groups rest]

end

mutual

theorem groups_withIndex : ∀ n : PlanNode,
    (n.withIndex d sort).groups = n.groups.map fun g => (Planner.switched d sort g.2 g.1, g.2)
  | .scan _ _ => rfl
  | .text _ _ => rfl
  | .and parts => groupsOf_withIndexOf parts
  | .or parts => groupsOf_withIndexOf parts

theorem groupsOf_withIndexOf : ∀ ns : List PlanNode,
    groupsOf (withIndexOf d sort ns) = (groupsOf ns).map fun g => (Planner.switched d sort g.2 g.1, g.2)
  | [] => rfl
  | n :: rest => by
    rw [withIndexOf, groupsOf, groupsOf, List.map_append, groups_withIndex n, groupsOf_withIndexOf rest]

end

mutual

theorem searches_withIndex : ∀ n : PlanNode, (n.withIndex d sort).searches = n.searches
  | .scan _ _ => rfl
  | .text _ _ => rfl
  | .and parts => searchesOf_withIndexOf parts
  | .or parts => searchesOf_withIndexOf parts

theorem searchesOf_withIndexOf : ∀ ns : List PlanNode, searchesOf (withIndexOf d sort ns) = searchesOf ns
  | [] => rfl
  | n :: rest => by rw [withIndexOf, searchesOf, searchesOf, searches_withIndex n, searchesOf_withIndexOf rest]

end

end PlanNode

namespace Planner

variable {sort : List SortKey} {d : Definition} {before after : List Definition}

def Parts.withIndex (d : Definition) (sort : List SortKey) (parts : Parts) : Parts :=
  { group := parts.group, nodes := PlanNode.withIndexOf d sort parts.nodes }

theorem intersection_withIndex (d : Definition) (sort : List SortKey) (nodes : List PlanNode) :
    intersection (PlanNode.withIndexOf d sort nodes) = (intersection nodes).withIndex d sort := by
  rcases nodes with _ | ⟨n, _ | ⟨m, rest⟩⟩ <;> rfl

theorem conclude_insert (hk : d.kind = .value) (hn : ∀ e ∈ before ++ after, e.name ≠ d.name) {parts : Parts}
    {n : PlanNode} (h : conclude (before ++ after) sort parts = .ok n) :
    conclude (before ++ d :: after) sort (parts.withIndex d sort) = .ok (n.withIndex d sort) := by
  have hempty : (PlanNode.withIndexOf d sort parts.nodes).isEmpty = parts.nodes.isEmpty := by
    cases parts.nodes <;> rfl
  rw [conclude_eq] at h ⊢
  simp only [Parts.withIndex, hempty]
  split at h
  · rw [if_pos ‹_›, ← Except.ok.inj h, intersection_withIndex]
  · rw [if_neg ‹_›]
    cases hindex : chooseIndex (before ++ after) sort parts.group with
    | error e => simp [hindex, Except.map] at h
    | ok index =>
      simp only [hindex, Except.map, Except.ok.injEq] at h
      rw [chooseIndex_insert hk hn hindex, ← h, ← intersection_withIndex]
      rfl

theorem find?_text_insert (hk : d.kind = .value) :
    (before ++ d :: after).find? (·.kind == .text) = (before ++ after).find? (·.kind == .text) := by
  have hd : (d.kind == .text) = false := by rw [hk]; rfl
  rw [List.find?_append, List.find?_append, List.find?_cons, hd]

mutual

theorem gather_insert (hk : d.kind = .value) (hn : ∀ e ∈ before ++ after, e.name ≠ d.name) :
    ∀ (s : Selector) {parts : Parts}, gather (before ++ after) sort s = .ok parts →
    gather (before ++ d :: after) sort s = .ok (parts.withIndex d sort)
  | .and ss, _, h => gatherAll_insert hk hn ss h
  | .or ss, parts, h => by
    obtain ⟨nodes, hs, rfl⟩ := gather_or_ok h
    rw [gather, alternatives_insert hk hn ss hs]
    rfl
  | .field path condition, parts, h => by
    rw [gather] at h ⊢
    rw [← Except.ok.inj h]
    rfl
  | .text search, parts, h => by
    rw [gather] at h ⊢
    rw [find?_text_insert hk]
    cases hf : (before ++ after).find? (·.kind == .text) with
    | none => simp [hf] at h
    | some index =>
      simp only [hf, Except.ok.injEq] at h
      rw [← h]
      rfl

theorem gatherAll_insert (hk : d.kind = .value) (hn : ∀ e ∈ before ++ after, e.name ≠ d.name) :
    ∀ (ss : List Selector) {parts : Parts},
    gatherAll (before ++ after) sort ss = .ok parts →
    gatherAll (before ++ d :: after) sort ss = .ok (parts.withIndex d sort)
  | [], parts, h => by
    rw [gatherAll] at h ⊢
    rw [← Except.ok.inj h]
    rfl
  | s :: rest, parts, h => by
    obtain ⟨first, more, hs, hrest, rfl⟩ := gatherAll_cons_ok h
    rw [gatherAll, gather_insert hk hn s hs, gatherAll_insert hk hn rest hrest]
    simp only [bind, Except.bind, Parts.withIndex, PlanNode.withIndexOf_append]

theorem alternatives_insert (hk : d.kind = .value) (hn : ∀ e ∈ before ++ after, e.name ≠ d.name) :
    ∀ (ss : List Selector) {nodes : List PlanNode},
    alternatives (before ++ after) sort ss = .ok nodes →
    alternatives (before ++ d :: after) sort ss = .ok (PlanNode.withIndexOf d sort nodes)
  | [], nodes, h => by
    rw [alternatives] at h ⊢
    rw [← Except.ok.inj h]
    rfl
  | s :: rest, nodes, h => by
    obtain ⟨parts, first, more, hs, hfirst, hrest, rfl⟩ := alternatives_cons_ok h
    rw [alternatives, gather_insert hk hn s hs, alternatives_insert hk hn rest hrest]
    simp only [bind, Except.bind, conclude_insert hk hn hfirst, PlanNode.withIndexOf]

end

def Sorts (sort : List SortKey) (d : Definition) : Prop := ∀ key ∈ sort, d.covers key.path = true

/-- The new index takes a group by its leading field: it has all fields of the group, its leading field is among
them, and that of the index chosen before is not. -/
structure Overtakes (d : Definition) (g : Definition × List (String × Condition)) : Prop where
  covers : (constrained g.2).all d.covers = true
  leading : ∃ f, d.fields.head? = some f ∧ f.path ∈ constrained g.2
  free : ∀ f, g.1.fields.head? = some f → f.path ∉ constrained g.2

/-- The new index breaks a sorted plan: it lacks a sort field and overtakes every index of the plan that has
them all. -/
structure Breaks (d : Definition) (p : Plan) : Prop where
  sorted : p.sort ≠ []
  misses : ¬ Sorts p.sort d
  overtakes : ∀ g ∈ p.root.groups, Sorts p.sort g.1 → Overtakes d g

end Planner

namespace Plan

open Planner

variable {d : Definition} {before after : List Definition}

/-- An index whose leading field a query by name leaves free. -/
def people : Definition := { name := "people", kind := .value, fields := [{ path := "age" }, { path := "name" }] }

/-- An index whose leading field it constrains. -/
def names : Definition := { name := "names", kind := .value, fields := [{ path := "name" }] }

/-- The query by name, and its order by age. -/
def byName : Selector := .field "name" (.compare .eq (.string "ann"))

end Plan

end DocIndex
