import DocIndex.Proofs.Database.Declare
import DocIndex.Proofs.Query.Denotation
import DocIndex.Proofs.Query.Pages
import Mathlib.Data.List.Sort

/-! # Selectors whose parts are in another order

Conjunctions and alternatives do not say in which order their parts are to be read, and a conjunction in a conjunction
says nothing that its parts would not say there. The planner collects the conditions of nested conjunctions into one
group and makes a set of its own of each alternative, so a selector that is arranged in another way has another plan.
It has one all the same, over the same indexes and searches, and the plans find the same documents in any database.
-/

namespace DocIndex

/-! ## Planning -/

namespace Planner

open PlanNode

variable {definitions : List Definition} {sort : List SortKey} {group group' : List (String × Condition)}

theorem insertPath_sorted {path : String} {sorted : List String} (h : sorted.Pairwise (· < ·)) :
    (insertPath path sorted).Pairwise (· < ·) := by
  induction sorted with
  | nil => simp [insertPath]
  | cons p rest ih =>
    rw [List.pairwise_cons] at h
    unfold insertPath
    split
    · rename_i hlt
      refine List.pairwise_cons.mpr ⟨fun q hq => ?_, List.pairwise_cons.mpr h⟩
      rcases List.mem_cons.mp hq with rfl | hq
      · exact hlt
      · exact hlt.trans (h.1 q hq)
    split
    · exact List.pairwise_cons.mpr h
    · rename_i hnot hne
      refine List.pairwise_cons.mpr ⟨fun q hq => ?_, ih h.2⟩
      rcases mem_insertPath.mp hq with rfl | hq
      · exact lt_of_le_of_ne (not_lt.mp hnot) (Ne.symm hne)
      · exact h.1 q hq

theorem constrained_sorted (group : List (String × Condition)) : (constrained group).Pairwise (· < ·) := by
  unfold constrained
  induction (group.map (·.1)).filter (!isBuiltin ·) with
  | nil => exact List.Pairwise.nil
  | cons path rest ih => exact insertPath_sorted ih

theorem constrained_congr (h : ∀ path, (∃ c, (path, c) ∈ group) ↔ ∃ c, (path, c) ∈ group') :
    constrained group = constrained group' := by
  have hmem : ∀ path, path ∈ constrained group ↔ path ∈ constrained group' := by
    intro path
    rw [mem_constrained, mem_constrained, h]
  have hnodup : ∀ group, (constrained group).Nodup := fun group => (constrained_sorted group).imp ne_of_lt
  have hperm := (List.perm_ext_iff_of_nodup (hnodup group) (hnodup group')).mpr hmem
  exact hperm.eq_of_pairwise' (constrained_sorted group) (constrained_sorted group')

theorem chooseIndex_congr (h : ∀ p, p ∈ group ↔ p ∈ group') :
    chooseIndex definitions sort group = chooseIndex definitions sort group' := by
  have hsame : constrained group = constrained group' := constrained_congr fun path => by simp only [h]
  unfold chooseIndex
  rw [hsame]

/-- Parts of a conjunction that are the same in another order. -/
structure Parts.Equivalent (p q : Parts) : Prop where
  group : ∀ c, c ∈ p.group ↔ c ∈ q.group
  nodes : Counterparts PlanNode.Equivalent p.nodes q.nodes

theorem Parts.Equivalent.refl (p : Parts) : p.Equivalent p :=
  ⟨fun _ => Iff.rfl, .refl PlanNode.Equivalent.refl _⟩

theorem Parts.Equivalent.symm {p q : Parts} (h : p.Equivalent q) : q.Equivalent p :=
  ⟨fun c => (h.group c).symm, h.nodes.symm fun _ _ => PlanNode.Equivalent.symm⟩

theorem Parts.Equivalent.trans {p q r : Parts} (h : p.Equivalent q) (h' : q.Equivalent r) : p.Equivalent r :=
  ⟨fun c => (h.group c).trans (h'.group c), h.nodes.trans (fun _ _ _ => PlanNode.Equivalent.trans) h'.nodes⟩

theorem conclude_agree {p q : Parts} (h : p.Equivalent q) :
    Agree PlanNode.Equivalent (conclude definitions sort p) (conclude definitions sort q) := by
  have hgroup : p.group.isEmpty = q.group.isEmpty := (Counterparts.of_mem_iff (fun _ => rfl) h.group).isEmpty_eq
  rw [conclude_eq, conclude_eq, hgroup, h.nodes.isEmpty_eq, chooseIndex_congr h.group]
  split
  · exact .ok (equivalent_intersection h.nodes)
  · refine (Agree.refl (r := Eq) (fun _ => rfl) (chooseIndex definitions sort q.group)).map ?_
    rintro d _ rfl
    exact equivalent_intersection (h.nodes.cons (equivalent_scan d h.group))

theorem succeeds_orderIndex_congr {n m : PlanNode} (h : n.Equivalent m) (sort : List SortKey) :
    Succeeds (orderIndex n sort) ↔ Succeeds (orderIndex m sort) := by
  have hread : n.scans ++ n.texts = [] ↔ m.scans ++ m.texts = [] := by
    refine (Counterparts.of_mem_iff (fun _ => rfl) fun d => ?_).eq_nil_iff
    rw [List.mem_append, List.mem_append, texts, texts, List.mem_map, List.mem_map]
    simp only [h.scans, h.searches]
  have hunsorted : ∀ n : PlanNode, Succeeds (orderIndex n []) ↔ n.scans ++ n.texts ≠ [] := by
    intro n
    unfold orderIndex
    cases n.scans ++ n.texts with
    | nil => exact iff_of_false (not_succeeds_error _) (by simp)
    | cons d rest => exact iff_of_true (succeeds_ok _) (by simp)
  have hsorted : ∀ n : PlanNode, sort ≠ [] →
      (Succeeds (orderIndex n sort) ↔ ∃ d ∈ n.scans, (sort.all fun key => d.covers key.path) = true) := by
    intro n hne
    unfold orderIndex
    rw [if_neg (by simpa using hne), ← List.find?_isSome]
    cases n.scans.find? fun d => sort.all fun key => d.covers key.path with
    | none => exact iff_of_false (not_succeeds_error _) (by simp)
    | some d => exact iff_of_true (succeeds_ok _) rfl
  by_cases hsort : sort = []
  · rw [hsort, hunsorted, hunsorted, ne_eq, hread]
  · rw [hsorted n hsort, hsorted m hsort]
    simp only [h.scans]

/-- Parts of several conjunctions, put together. -/
def Parts.join (ps : List Parts) : Parts := { group := ps.flatMap (·.group), nodes := ps.flatMap (·.nodes) }

theorem Parts.join_equivalent {ps qs : List Parts} (h : Counterparts Parts.Equivalent ps qs) :
    (join ps).Equivalent (join qs) := by
  refine ⟨fun c => ?_, ⟨fun n hn => ?_, fun n hn => ?_⟩⟩
  · unfold join
    rw [List.mem_flatMap, List.mem_flatMap]
    exact h.exists_iff fun p q hpq => hpq.group c
  · obtain ⟨p, hp, hn⟩ := List.mem_flatMap.mp hn
    obtain ⟨q, hq, hpq⟩ := h.left p hp
    obtain ⟨m, hm, hnm⟩ := hpq.nodes.left n hn
    exact ⟨m, List.mem_flatMap.mpr ⟨q, hq, hm⟩, hnm⟩
  · obtain ⟨q, hq, hn⟩ := List.mem_flatMap.mp hn
    obtain ⟨p, hp, hpq⟩ := h.right q hq
    obtain ⟨m, hm, hmn⟩ := hpq.nodes.right n hn
    exact ⟨m, List.mem_flatMap.mpr ⟨p, hp, hm⟩, hmn⟩

theorem gatherAll_eq_mapM (definitions : List Definition) (sort : List SortKey) (ss : List Selector) :
    gatherAll definitions sort ss = (ss.mapM (gather definitions sort)).map Parts.join := by
  induction ss with
  | nil => rfl
  | cons s rest ih =>
    rw [gatherAll, List.mapM_cons, ih]
    cases gather definitions sort s with
    | error e => rfl
    | ok first => cases rest.mapM (gather definitions sort) <;> rfl

theorem alternatives_eq_mapM (definitions : List Definition) (sort : List SortKey) (ss : List Selector) :
    alternatives definitions sort ss =
      ss.mapM (gather definitions sort · >>= conclude definitions sort) := by
  induction ss with
  | nil => rfl
  | cons s rest ih =>
    rw [alternatives, List.mapM_cons, ih]
    cases gather definitions sort s with
    | error e => rfl
    | ok parts => rfl

theorem gatherAll_append (ss ts : List Selector) :
    gatherAll definitions sort (ss ++ ts) = (do
      let first ← gatherAll definitions sort ss
      let more ← gatherAll definitions sort ts
      .ok { group := first.group ++ more.group, nodes := first.nodes ++ more.nodes }) := by
  induction ss with
  | nil =>
    rw [List.nil_append, gatherAll]
    cases gatherAll definitions sort ts <;> rfl
  | cons s rest ih =>
    rw [List.cons_append, gatherAll, gatherAll, ih]
    cases gather definitions sort s with
    | error e => rfl
    | ok p =>
      cases gatherAll definitions sort rest with
      | error e => rfl
      | ok q =>
        cases gatherAll definitions sort ts with
        | error e => rfl
        | ok r => simp [bind, Except.bind]

theorem gatherAll_flatten (before inner after : List Selector) :
    gatherAll definitions sort (before ++ .and inner :: after) =
      gatherAll definitions sort (before ++ inner ++ after) := by
  rw [List.append_assoc, gatherAll_append, gatherAll_append before, gatherAll, gather, gatherAll_append inner]

/-- Two selectors give the same parts, or none. -/
def GatherAlike (definitions : List Definition) (sort : List SortKey) (s t : Selector) : Prop :=
  Agree Parts.Equivalent (gather definitions sort s) (gather definitions sort t)

theorem gatherAll_agree {ss ts : List Selector}
    (h : Counterparts (GatherAlike definitions sort) ss ts) :
    Agree Parts.Equivalent (gatherAll definitions sort ss) (gatherAll definitions sort ts) := by
  rw [gatherAll_eq_mapM, gatherAll_eq_mapM]
  exact (Counterparts.agree_mapM h).map fun _ _ => Parts.join_equivalent

theorem gather_or_agree {ss ts : List Selector}
    (h : Counterparts (GatherAlike definitions sort) ss ts) :
    Agree Parts.Equivalent (gather definitions sort (.or ss)) (gather definitions sort (.or ts)) := by
  rw [gather, gather, alternatives_eq_mapM, alternatives_eq_mapM]
  have hplans := Counterparts.agree_mapM (h.mono fun s t hst => hst.bind fun p q hpq =>
    show Agree PlanNode.Equivalent (conclude definitions sort p) (conclude definitions sort q) from conclude_agree hpq)
  refine hplans.bind fun ns ms hns => .ok ?_
  exact ⟨fun _ => Iff.rfl, .singleton (equivalent_or hns)⟩

end Planner

/-! ## Selectors -/

namespace Selector

/-- One selector comes from another if parts of conjunctions and alternatives change places, at any depth, and if
conjunctions in conjunctions are dissolved or put in. -/
inductive Rearranged : Selector → Selector → Prop where
  | refl (s : Selector) : Rearranged s s
  | symm {s t : Selector} (h : Rearranged s t) : Rearranged t s
  | trans {s t u : Selector} (h : Rearranged s t) (h' : Rearranged t u) : Rearranged s u
  | and_perm {parts others : List Selector} (h : parts.Perm others) : Rearranged (.and parts) (.and others)
  | or_perm {parts others : List Selector} (h : parts.Perm others) : Rearranged (.or parts) (.or others)
  | flatten (before inner after : List Selector) :
      Rearranged (.and (before ++ .and inner :: after)) (.and (before ++ inner ++ after))
  | and_part (before after : List Selector) {s t : Selector} (h : Rearranged s t) :
      Rearranged (.and (before ++ s :: after)) (.and (before ++ t :: after))
  | or_part (before after : List Selector) {s t : Selector} (h : Rearranged s t) :
      Rearranged (.or (before ++ s :: after)) (.or (before ++ t :: after))

/-- The planner collects the same parts of selectors that are arranged in other ways. -/
theorem Rearranged.gatherAlike {s t : Selector} (h : s.Rearranged t) (definitions : List Definition)
    (sort : List SortKey) : Planner.GatherAlike definitions sort s t := by
  have hrefl : ∀ s, Planner.GatherAlike definitions sort s s := fun s => .refl Planner.Parts.Equivalent.refl _
  have hothers := Counterparts.refl hrefl
  induction h with
  | refl s => exact hrefl s
  | symm _ ih => exact Agree.symm (fun _ _ => Planner.Parts.Equivalent.symm) ih
  | trans _ _ ih ih' => exact Agree.trans (fun _ _ _ => Planner.Parts.Equivalent.trans) ih ih'
  | and_perm h => exact Planner.gatherAll_agree (.of_mem_iff hrefl fun _ => h.mem_iff)
  | or_perm h => exact Planner.gather_or_agree (.of_mem_iff hrefl fun _ => h.mem_iff)
  | flatten before inner after =>
    have hsame : Planner.gather definitions sort (.and (before ++ .and inner :: after)) =
        Planner.gather definitions sort (.and (before ++ inner ++ after)) :=
      Planner.gatherAll_flatten before inner after
    rw [Planner.GatherAlike, hsame]
    exact hrefl _
  | and_part before after _ ih => exact Planner.gatherAll_agree ((hothers before).append ((hothers after).cons ih))
  | or_part before after _ ih => exact Planner.gather_or_agree ((hothers before).append ((hothers after).cons ih))

end Selector

namespace Plan

def ids? (db : Database) (p : Plan) : Except QueryError (List String) := do
  let s ← Compile.node? p.root
  Database.lift (s.ids db)

/-- A plan is compiled to a set that has a document, whether or not all of it can be read. -/
def Denotes (db : Database) (p : Plan) (id : String) : Prop := ∃ s, Compile.node? p.root = .ok s ∧ s.Has db id

theorem mem_ids? {db : Database} {p : Plan} {found : List String} (h : p.ids? db = .ok found) (id : String) :
    id ∈ found ↔ p.Denotes db id := by
  obtain ⟨s, hs, h⟩ := ok_of_bind h
  rw [IdSet.mem_ids s (Database.lift_ok h)]
  simp [Denotes, hs]

theorem succeeds_ids? {db : Database} {p : Plan} (h : db.Reads p.root) :
    Succeeds (p.ids? db) ↔ Succeeds (Compile.node? p.root) := by
  rw [ids?, succeeds_bind]
  refine exists_congr fun s => and_iff_left_of_imp fun hs => ?_
  obtain ⟨found, hfound⟩ := (PlanNode.readable_of_node? p.root h hs).succeeds
  rw [hfound]
  exact succeeds_ok found

/-- Selectors that are arranged in other ways have plans that find the same, or have none. -/
theorem make_agree {s t : Selector} (h : s.Rearranged t) (definitions : List Definition) (sort : List SortKey) :
    Agree (fun p q : Plan => p.root.Equivalent q.root) (make s definitions sort) (make t definitions sort) := by
  unfold make
  refine (h.gatherAlike definitions sort).bind fun _ _ hparts => ?_
  refine (Planner.conclude_agree hparts).bind fun n m hnm => ?_
  have horder := Planner.succeeds_orderIndex_congr hnm sort
  refine Agree.iff.mpr ⟨?_, fun p q hp hq => ?_⟩
  · rw [succeeds_bind_total fun _ => succeeds_ok _, succeeds_bind_total fun _ => succeeds_ok _, horder]
  · obtain ⟨d, _, hp⟩ := ok_of_bind hp
    obtain ⟨e, _, hq⟩ := ok_of_bind hq
    obtain rfl := Except.ok.inj hp
    obtain rfl := Except.ok.inj hq
    exact hnm

/-- A selector and one that is arranged in another way are both planned or both refused. In any database their plans
denote the same documents, and these are what each of them finds. Where the tables can be read and accept the searches
both find their documents or neither does, and both do if the selector is one that can be asked for. -/
theorem make_rearranged {s t : Selector} (h : s.Rearranged t) (definitions : List Definition) (sort : List SortKey) :
    (Succeeds (make s definitions sort) ↔ Succeeds (make t definitions sort)) ∧
    ∀ p q, make s definitions sort = .ok p → make t definitions sort = .ok q → ∀ db : Database,
      (∀ id, p.Denotes db id ↔ q.Denotes db id) ∧
      (∀ found, p.ids? db = .ok found → ∀ id, id ∈ found ↔ p.Denotes db id) ∧
      (∀ found, q.ids? db = .ok found → ∀ id, id ∈ found ↔ q.Denotes db id) ∧
      (db.Reads p.root → (Succeeds (p.ids? db) ↔ Succeeds (q.ids? db)) ∧ (s.Requested → Succeeds (p.ids? db))) := by
  obtain ⟨hsucceeds, hok⟩ := Agree.iff.mp (make_agree h definitions sort)
  refine ⟨hsucceeds, fun p q hp hq db => ?_⟩
  have hsame := hok p q hp hq
  refine ⟨fun id => ?_, fun _ => mem_ids?, fun _ => mem_ids?, fun hreads => ⟨?_, fun hrequested => ?_⟩⟩
  · obtain ⟨hcompiled, hsets⟩ := Agree.iff.mp hsame.sets
    constructor
    · rintro ⟨left, hleft, hid⟩
      obtain ⟨right, hright⟩ := hcompiled.mp ⟨left, hleft⟩
      exact ⟨right, hright, (hsets left right hleft hright db id).mp hid⟩
    · rintro ⟨right, hright, hid⟩
      obtain ⟨left, hleft⟩ := hcompiled.mpr ⟨right, hright⟩
      exact ⟨left, hleft, (hsets left right hleft hright db id).mpr hid⟩
  · rw [succeeds_ids? hreads, succeeds_ids? ((hsame.reads_iff db).mp hreads), (Agree.iff.mp hsame.sets).1]
  · rw [succeeds_ids? hreads]
    exact ⟨_, Compile.node?_eq (compiles_of_make hrequested hp).root⟩

def above (score : Int) : Selector := .field "score" (.compare .gt (.number (.int score)))

def after (name : String) : Selector := .field "name" (.compare .gt (.string name))

theorem rearranged_above : (Selector.and [.and [above 1], .or [after "b", above 5]]).Rearranged
    (.and [.or [above 5, after "b"], above 1]) := by
  refine .trans (.flatten [] [above 1] [.or [after "b", above 5]]) ?_
  refine .trans (.and_part [above 1] [] (.or_perm (.swap (above 5) (after "b") []))) ?_
  exact .and_perm (.swap _ _ [])

/-- Ann has a score of 7. -/
theorem make_rearranged_players : ∃ q others,
    make (.and [.or [above 5, after "b"], above 1]) [nameIndex, scoreIndex] [] = .ok q ∧
    q.ids? players = .ok others ∧ ∀ id, id ∈ others ↔ id = "ann" := by
  have hmake : ∃ p, make (.and [.and [above 1], .or [after "b", above 5]]) [nameIndex, scoreIndex] [] = .ok p ∧
      p.ids? players = .ok ["ann", "ann"] ∧ players.Reads p.root := by
    refine ⟨_, rfl, rfl, fun d hd => ?_, fun s hs => absurd hs List.not_mem_nil⟩
    have hd : d ∈ [scoreIndex, nameIndex, scoreIndex] := hd
    simp only [List.mem_cons, List.not_mem_nil, or_false] at hd
    rcases hd with rfl | rfl | rfl <;> exact ⟨_, _, rfl, rfl⟩
  obtain ⟨p, hp, hfound, hreads⟩ := hmake
  obtain ⟨hsucceeds, hall⟩ := make_rearranged rearranged_above [nameIndex, scoreIndex] []
  obtain ⟨q, hq⟩ := hsucceeds.mp ⟨p, hp⟩
  obtain ⟨hsame, hleft, hright, hread⟩ := hall p q hp hq players
  obtain ⟨others, hothers⟩ := (hread hreads).1.mp ⟨_, hfound⟩
  refine ⟨q, others, hq, hothers, fun id => ?_⟩
  rw [hright _ hothers, ← hsame id, ← hleft _ hfound]
  simp

end Plan

end DocIndex
