import DocIndex.Proofs.Basic
import DocIndex.Query.Plan

/-! # Groups and their indexes

The index that is chosen for a group of conditions is a value index with all fields of the group, and the
index that orders results is one that the plan reads and has all sort fields.
-/

namespace DocIndex

namespace PlanNode

mutual

/-- A plan whose groups and searches each have some property. No conjunction in it is empty. -/
def Uses (ok : Definition → List (String × Condition) → Prop) (text : Definition → String → Prop) : PlanNode → Prop
  | .scan index conditions => ok index conditions
  | .text index search => text index search
  | .and parts => parts ≠ [] ∧ AllUse ok text parts
  | .or parts => AllUse ok text parts

def AllUse (ok : Definition → List (String × Condition) → Prop) (text : Definition → String → Prop) :
    List PlanNode → Prop
  | [] => True
  | n :: rest => n.Uses ok text ∧ AllUse ok text rest

end

mutual

/-- A plan without searches all of whose groups have some property. No conjunction in it is empty. -/
def Runs (ok : Definition → List (String × Condition) → Prop) : PlanNode → Prop
  | .scan index conditions => ok index conditions
  | .text _ _ => False
  | .and parts => parts ≠ [] ∧ AllRun ok parts
  | .or parts => AllRun ok parts

def AllRun (ok : Definition → List (String × Condition) → Prop) : List PlanNode → Prop
  | [] => True
  | n :: rest => n.Runs ok ∧ AllRun ok rest

end

variable {ok ok' : Definition → List (String × Condition) → Prop} {text text' : Definition → String → Prop}

theorem allUse_append (ns ms : List PlanNode) : AllUse ok text (ns ++ ms) ↔ AllUse ok text ns ∧ AllUse ok text ms := by
  induction ns with
  | nil => simp [AllUse]
  | cons n rest ih => simp only [List.cons_append, AllUse, ih, and_assoc]

mutual

theorem Uses.mono : ∀ {n : PlanNode}, (∀ d ∈ n.scans, ∀ g, ok d g → ok' d g) →
    (∀ s ∈ n.searches, text s.1 s.2 → text' s.1 s.2) → n.Uses ok text → n.Uses ok' text'
  | .scan _ _, hok, _, hn => hok _ (List.mem_singleton_self _) _ hn
  | .text _ _, _, htext, hn => htext (_, _) (List.mem_singleton_self _) hn
  | .and _, hok, htext, hn => ⟨hn.1, AllUse.mono hok htext hn.2⟩
  | .or _, hok, htext, hn => AllUse.mono hok htext hn

theorem AllUse.mono : ∀ {ns : List PlanNode}, (∀ d ∈ scansOf ns, ∀ g, ok d g → ok' d g) →
    (∀ s ∈ searchesOf ns, text s.1 s.2 → text' s.1 s.2) → AllUse ok text ns → AllUse ok' text' ns
  | [], _, _, _ => trivial
  | _ :: _, hok, htext, hns =>
    ⟨Uses.mono (fun d hd => hok d (List.mem_append_left _ hd)) (fun s hs => htext s (List.mem_append_left _ hs)) hns.1,
      AllUse.mono (fun d hd => hok d (List.mem_append_right _ hd)) (fun s hs => htext s (List.mem_append_right _ hs))
        hns.2⟩

end

mutual

theorem Uses.runs : ∀ {n : PlanNode}, n.Uses ok (fun _ _ => False) → n.Runs ok
  | .scan _ _, hn => hn
  | .text _ _, hn => hn
  | .and _, hn => ⟨hn.1, AllUse.runs hn.2⟩
  | .or _, hn => AllUse.runs hn

theorem AllUse.runs : ∀ {ns : List PlanNode}, AllUse ok (fun _ _ => False) ns → AllRun ok ns
  | [], _ => trivial
  | _ :: _, hns => ⟨Uses.runs hns.1, AllUse.runs hns.2⟩

end

mutual

theorem Runs.uses : ∀ {n : PlanNode}, n.Runs ok → n.Uses ok text
  | .scan _ _, hn => hn
  | .text _ _, hn => hn.elim
  | .and _, hn => ⟨hn.1, AllRun.uses hn.2⟩
  | .or _, hn => AllRun.uses hn

theorem AllRun.uses : ∀ {ns : List PlanNode}, AllRun ok ns → AllUse ok text ns
  | [], _ => trivial
  | _ :: _, hns => ⟨Runs.uses hns.1, AllRun.uses hns.2⟩

end

mutual

theorem Runs.scans : ∀ {n : PlanNode}, n.Runs ok → ∀ d ∈ n.scans, ∃ g, ok d g
  | .scan index conditions, hn, d, hd => by
    rw [PlanNode.scans, List.mem_singleton] at hd
    rw [hd]
    exact ⟨conditions, hn⟩
  | .text _ _, hn, _, _ => hn.elim
  | .and _, hn, d, hd => AllRun.scans hn.2 d hd
  | .or _, hn, d, hd => AllRun.scans hn d hd

theorem AllRun.scans : ∀ {ns : List PlanNode}, AllRun ok ns → ∀ d ∈ scansOf ns, ∃ g, ok d g
  | [], _, d, hd => by simp [scansOf] at hd
  | _ :: _, hns, d, hd => (List.mem_append.mp hd).elim (Runs.scans hns.1 d) (AllRun.scans hns.2 d)

end

mutual

theorem Runs.searches : ∀ {n : PlanNode}, n.Runs ok → n.searches = []
  | .scan _ _, _ => rfl
  | .text _ _, hn => hn.elim
  | .and _, hn => AllRun.searches hn.2
  | .or _, hn => AllRun.searches hn

theorem AllRun.searches : ∀ {ns : List PlanNode}, AllRun ok ns → searchesOf ns = []
  | [], _ => rfl
  | _ :: _, hns => by rw [searchesOf, Runs.searches hns.1, AllRun.searches hns.2, List.append_nil]

end

end PlanNode

namespace Planner

variable {paths : List String} {sort : List SortKey} {definitions : List Definition} {d e : Definition}
variable {group : List (String × Condition)}

theorem mem_insertPath {path p : String} {sorted : List String} :
    p ∈ insertPath path sorted ↔ p = path ∨ p ∈ sorted := by
  induction sorted with
  | nil => simp [insertPath]
  | cons q rest ih =>
    unfold insertPath
    split
    · simp
    · split
      · rename_i heq
        simp [heq]
      · rw [List.mem_cons, ih, List.mem_cons]
        exact or_left_comm

theorem mem_constrained {path : String} :
    path ∈ constrained group ↔ (∃ c, (path, c) ∈ group) ∧ isBuiltin path = false := by
  have hfold : ∀ ps : List String, path ∈ ps.foldr insertPath [] ↔ path ∈ ps := by
    intro ps
    induction ps with
    | nil => simp
    | cons p rest ih => rw [List.foldr_cons, mem_insertPath, ih, List.mem_cons]
  unfold constrained
  rw [hfold, List.mem_filter, List.mem_map]
  simp

theorem best_mem {ds : List Definition} (h : best paths sort ds = some e) : e ∈ ds := by
  induction ds generalizing e with
  | nil => cases h
  | cons d rest ih =>
    unfold best at h
    cases hrest : best paths sort rest with
    | none =>
      rw [hrest] at h
      rw [← Option.some.inj h]
      exact List.mem_cons_self
    | some b =>
      simp only [hrest] at h
      split at h
      · rw [← Option.some.inj h]
        exact List.mem_cons_of_mem _ (ih hrest)
      · rw [← Option.some.inj h]
        exact List.mem_cons_self

theorem mem_candidates : d ∈ candidates paths definitions ↔
    d ∈ definitions ∧ d.kind = .value ∧ ∀ path ∈ paths, d.covers path = true := by
  simp [candidates]

theorem chooseIndex_ok (h : chooseIndex definitions sort group = .ok d) :
    d ∈ definitions ∧ d.kind = .value ∧ ∀ p ∈ group, d.covers p.1 = true := by
  unfold chooseIndex at h
  cases hbest : best (constrained group) sort (candidates (constrained group) definitions) with
  | none => simp [hbest] at h
  | some b =>
    simp only [hbest] at h
    obtain rfl := Except.ok.inj h
    obtain ⟨hmem, hkind, hcovers⟩ := mem_candidates.mp (best_mem hbest)
    refine ⟨hmem, hkind, ?_⟩
    intro p hp
    cases hbuiltin : isBuiltin p.1 with
    | true => simp [Definition.covers, hbuiltin]
    | false => exact hcovers p.1 (mem_constrained.mpr ⟨⟨p.2, hp⟩, hbuiltin⟩)

def intersection : List PlanNode → PlanNode
  | [n] => n
  | nodes => .and nodes

theorem conclude_eq (definitions : List Definition) (sort : List SortKey) (parts : Parts) :
    conclude definitions sort parts =
      if parts.group.isEmpty && !parts.nodes.isEmpty then .ok (intersection parts.nodes)
      else (chooseIndex definitions sort parts.group).map fun index =>
        intersection (.scan index parts.group :: parts.nodes) := by
  have hjoin : ∀ nodes : List PlanNode, (match nodes with
      | [n] => Except.ok n
      | nodes => Except.ok (.and nodes) : Except QueryError PlanNode) = .ok (intersection nodes) := by
    intro nodes
    rcases nodes with _ | ⟨n, _ | ⟨m, rest⟩⟩ <;> rfl
  unfold conclude
  split
  · exact hjoin _
  · cases chooseIndex definitions sort parts.group with
    | error e => rfl
    | ok index => exact hjoin _

/-! ## Steps of the planner -/

variable {s : Selector} {ss : List Selector} {parts : Parts} {nodes : List PlanNode} {n : PlanNode} {p : Plan}

theorem conclude_ok (h : conclude definitions sort parts = .ok n) :
    (parts.group = [] ∧ parts.nodes ≠ [] ∧ n = intersection parts.nodes) ∨
    ((parts.group ≠ [] ∨ parts.nodes = []) ∧ ∃ d, chooseIndex definitions sort parts.group = .ok d ∧
      n = intersection (.scan d parts.group :: parts.nodes)) := by
  rw [conclude_eq] at h
  split at h
  · rename_i hnodes
    rw [Bool.and_eq_true, Bool.not_eq_true', List.isEmpty_iff, List.isEmpty_eq_false_iff] at hnodes
    exact Or.inl ⟨hnodes.1, hnodes.2, (Except.ok.inj h).symm⟩
  · rename_i hgroup
    rw [Bool.and_eq_true, Bool.not_eq_true', List.isEmpty_iff, List.isEmpty_eq_false_iff] at hgroup
    obtain ⟨d, hindex, rfl⟩ := ok_of_map h
    refine Or.inr ⟨?_, d, hindex, rfl⟩
    by_cases hnone : parts.group = []
    · by_cases hnodes : parts.nodes = []
      · exact Or.inr hnodes
      · exact absurd ⟨hnone, hnodes⟩ hgroup
    · exact Or.inl hnone

theorem gather_or_ok (h : gather definitions sort (.or ss) = .ok parts) :
    ∃ nodes, alternatives definitions sort ss = .ok nodes ∧ parts = { nodes := [.or nodes] } := by
  rw [gather] at h
  obtain ⟨nodes, hnodes, h⟩ := ok_of_bind h
  exact ⟨nodes, hnodes, (Except.ok.inj h).symm⟩

theorem gatherAll_cons_ok (h : gatherAll definitions sort (s :: ss) = .ok parts) :
    ∃ first more, gather definitions sort s = .ok first ∧ gatherAll definitions sort ss = .ok more ∧
      parts = { group := first.group ++ more.group, nodes := first.nodes ++ more.nodes } := by
  rw [gatherAll] at h
  obtain ⟨first, hfirst, h⟩ := ok_of_bind h
  obtain ⟨more, hmore, h⟩ := ok_of_bind h
  exact ⟨first, more, hfirst, hmore, (Except.ok.inj h).symm⟩

theorem alternatives_cons_ok (h : alternatives definitions sort (s :: ss) = .ok nodes) :
    ∃ parts first more, gather definitions sort s = .ok parts ∧ conclude definitions sort parts = .ok first ∧
      alternatives definitions sort ss = .ok more ∧ nodes = first :: more := by
  rw [alternatives] at h
  obtain ⟨parts, hparts, h⟩ := ok_of_bind h
  obtain ⟨first, hfirst, h⟩ := ok_of_bind h
  obtain ⟨more, hmore, h⟩ := ok_of_bind h
  exact ⟨parts, first, more, hparts, hfirst, hmore, (Except.ok.inj h).symm⟩

theorem make_ok (h : Plan.make s definitions sort = .ok p) :
    ∃ parts, gather definitions sort s = .ok parts ∧ conclude definitions sort parts = .ok p.root ∧
      orderIndex p.root sort = .ok p.orderIndex ∧ p.sort = sort := by
  unfold Plan.make at h
  obtain ⟨parts, hparts, h⟩ := ok_of_bind h
  obtain ⟨root, hroot, h⟩ := ok_of_bind h
  obtain ⟨order, horder, h⟩ := ok_of_bind h
  obtain rfl := Except.ok.inj h
  exact ⟨parts, hparts, hroot, horder, rfl⟩

theorem orderIndex_ok {root : PlanNode} (h : orderIndex root sort = .ok d) :
    d ∈ root.scans ++ root.texts ∧ ∀ key ∈ sort, d.covers key.path = true := by
  unfold orderIndex at h
  split at h
  · rename_i hnone
    rw [List.isEmpty_iff] at hnone
    subst hnone
    cases hread : root.scans ++ root.texts with
    | nil => simp [hread] at h
    | cons e rest =>
      simp only [hread] at h
      obtain rfl := Except.ok.inj h
      exact ⟨List.mem_cons_self, by simp⟩
  · cases hfind : root.scans.find? fun e => sort.all fun key => e.covers key.path with
    | none => simp [hfind] at h
    | some e =>
      simp only [hfind] at h
      obtain rfl := Except.ok.inj h
      refine ⟨List.mem_append_left _ (List.mem_of_find?_eq_some hfind), ?_⟩
      have hall := List.find?_some hfind
      exact List.all_eq_true.mp hall

end Planner

end DocIndex
