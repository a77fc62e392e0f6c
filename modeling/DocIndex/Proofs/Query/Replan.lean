import DocIndex.Proofs.Index.Bare
import DocIndex.Proofs.Query.Alike
import DocIndex.Proofs.Query.Meaning
import DocIndex.Proofs.Query.Requested

/-! # Plans of requested selectors

The plan of a selector that was read has for every group the index that is chosen for it. Types of fields and
checkpoints do not count in a plan, so a query that was planned before an update can be planned after it.
-/

namespace DocIndex

namespace Planner

open PlanNode

variable {definitions : List Definition} {sort : List SortKey}

/-- A group that a request can ask for is answered from the index that is chosen for it. -/
def Answers (definitions : List Definition) (sort : List SortKey) (d : Definition)
    (group : List (String × Condition)) : Prop :=
  chooseIndex definitions sort group = .ok d ∧ ∀ p ∈ group, p.2.Requested

variable {text : Definition → String → Prop}

theorem intersection_uses {ok : Definition → List (String × Condition) → Prop} {nodes : List PlanNode}
    (hne : nodes ≠ []) (h : AllUse ok text nodes) : (intersection nodes).Uses ok text := by
  rcases nodes with _ | ⟨n, _ | ⟨m, rest⟩⟩
  · exact absurd rfl hne
  · exact h.1
  · exact ⟨List.cons_ne_nil _ _, h⟩

theorem conclude_uses {parts : Parts} {n : PlanNode} (hgroup : ∀ p ∈ parts.group, p.2.Requested)
    (hnodes : AllUse (Answers definitions sort) text parts.nodes) (h : conclude definitions sort parts = .ok n) :
    n.Uses (Answers definitions sort) text := by
  rcases conclude_ok h with ⟨_, hne, rfl⟩ | ⟨_, d, hindex, rfl⟩
  · exact intersection_uses hne hnodes
  · exact intersection_uses (List.cons_ne_nil _ _) ⟨⟨hindex, hgroup⟩, hnodes⟩

/-- Searches go to the first text index, if there are any. -/
def Searches (definitions : List Definition) (text : Definition → String → Prop) : Prop :=
  ∀ d search, definitions.find? (·.kind == .text) = some d → text d search

mutual

theorem gather_uses : ∀ (s : Selector) {parts : Parts}, s.Requested →
    s.isTextFree = true ∨ Searches definitions text → gather definitions sort s = .ok parts →
    (∀ p ∈ parts.group, p.2.Requested) ∧ AllUse (Answers definitions sort) text parts.nodes
  | .and ss, parts, hr, ht, h => gatherAll_uses ss hr ht h
  | .or ss, parts, hr, ht, h => by
    obtain ⟨nodes, hs, rfl⟩ := gather_or_ok h
    exact ⟨by simp, alternatives_uses ss hr ht hs, trivial⟩
  | .field path condition, parts, hr, _, h => by
    rw [gather] at h
    rw [← Except.ok.inj h]
    refine ⟨?_, trivial⟩
    intro p hp
    rw [List.mem_singleton.mp hp]
    exact hr
  | .text search, parts, _, ht, h => by
    rw [gather] at h
    cases hfind : definitions.find? (·.kind == .text) with
    | none => simp [hfind] at h
    | some d =>
      simp only [hfind] at h
      rw [← Except.ok.inj h]
      have htext := ht.resolve_left (by simp [Selector.isTextFree])
      exact ⟨by simp, htext d search hfind, trivial⟩

theorem gatherAll_uses : ∀ (ss : List Selector) {parts : Parts}, Selector.AllRequested ss →
    Selector.areTextFree ss = true ∨ Searches definitions text → gatherAll definitions sort ss = .ok parts →
    (∀ p ∈ parts.group, p.2.Requested) ∧ AllUse (Answers definitions sort) text parts.nodes
  | [], parts, _, _, h => by
    rw [gatherAll] at h
    rw [← Except.ok.inj h]
    exact ⟨by simp, trivial⟩
  | s :: rest, parts, hr, ht, h => by
    rw [Selector.areTextFree, Bool.and_eq_true] at ht
    obtain ⟨first, more, hfirst, hmore, rfl⟩ := gatherAll_cons_ok h
    obtain ⟨hgroup, hnodes⟩ := gather_uses s hr.1 (ht.imp_left And.left) hfirst
    obtain ⟨hgroup', hnodes'⟩ := gatherAll_uses rest hr.2 (ht.imp_left And.right) hmore
    exact ⟨List.forall_mem_append.mpr ⟨hgroup, hgroup'⟩, (allUse_append _ _).mpr ⟨hnodes, hnodes'⟩⟩

theorem alternatives_uses : ∀ (ss : List Selector) {nodes : List PlanNode}, Selector.AllRequested ss →
    Selector.areTextFree ss = true ∨ Searches definitions text → alternatives definitions sort ss = .ok nodes →
    AllUse (Answers definitions sort) text nodes
  | [], nodes, _, _, h => by
    rw [alternatives] at h
    rw [← Except.ok.inj h]
    trivial
  | s :: rest, nodes, hr, ht, h => by
    rw [Selector.areTextFree, Bool.and_eq_true] at ht
    obtain ⟨parts, first, more, hparts, hfirst, hmore, rfl⟩ := alternatives_cons_ok h
    obtain ⟨hgroup, hnodes⟩ := gather_uses s hr.1 (ht.imp_left And.left) hparts
    exact ⟨conclude_uses hgroup hnodes hfirst, alternatives_uses rest hr.2 (ht.imp_left And.right) hmore⟩

end

/-- Every group of a plan is answered from the index that is chosen for it, every search from the first text index. -/
theorem make_uses {s : Selector} {p : Plan} (hr : s.Requested)
    (ht : s.isTextFree = true ∨ Searches definitions text) (h : Plan.make s definitions sort = .ok p) :
    p.root.Uses (Answers definitions sort) text ∧ orderIndex p.root sort = .ok p.orderIndex ∧ p.sort = sort := by
  obtain ⟨parts, hparts, hroot, horder, hsort⟩ := make_ok h
  obtain ⟨hgroup, hnodes⟩ := gather_uses s hr ht hparts
  exact ⟨conclude_uses hgroup hnodes hroot, horder, hsort⟩

theorem make_runs {s : Selector} {p : Plan} (hr : s.Requested) (ht : s.isTextFree = true)
    (h : Plan.make s definitions sort = .ok p) :
    p.root.Runs (Answers definitions sort) ∧ orderIndex p.root sort = .ok p.orderIndex ∧ p.sort = sort := by
  obtain ⟨huses, hplan⟩ := make_uses hr (Or.inl ht) h
  exact ⟨huses.runs, hplan⟩

end Planner

/-! ## Types and checkpoints -/

theorem Definition.resembles_of_bare {d e : Definition} (h : e.bare = d.bare) : d.Resembles id e := by
  have hname : e.bare.name = d.bare.name := congrArg Definition.name h
  have hkind : e.bare.kind = d.bare.kind := congrArg Definition.kind h
  exact ⟨hname, hkind, by rw [List.map_id, ← paths_bare, h, paths_bare]⟩

theorem Plan.make_of_bare {ds es : List Definition} {s : Selector} {sort : List SortKey} {p : Plan}
    (h : es.map Definition.bare = ds.map Definition.bare) (hp : Plan.make s ds sort = .ok p) :
    ∃ q, Plan.make s es sort = .ok q := by
  have hds : List.Forall₂ (Definition.Resembles id) ds es := by
    have hbare : List.Forall₂ Eq (ds.map Definition.bare) (es.map Definition.bare) := by
      rw [h, List.forall₂_same]
      exact fun _ _ => rfl
    rw [List.forall₂_map_left_iff, List.forall₂_map_right_iff] at hbare
    exact hbare.imp fun d e heq => Definition.resembles_of_bare heq.symm
  have hsort : sort.map (SortKey.renamed id) = sort := List.map_id sort
  have hagree := Planner.make_alike Renames.refl (fun _ _ h => h) hds (Selector.Alike.refl s) sort
  rw [hp, hsort] at hagree
  obtain ⟨q, hq, _⟩ := hagree.exists_ok
  exact ⟨q, hq⟩

end DocIndex
