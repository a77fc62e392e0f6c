import DocIndex.Proofs.Query.Meaning
import DocIndex.Query.Compile
import DocIndex.Query.Limits

/-! # Alternatives and limits

Each alternative of a selector is a select of its own, and a set operator joins only so many of them. A selector
with more alternatives has a plan, but the statement of its plan is too large.
-/

namespace DocIndex

namespace IdSetSize

theorem le_widest_foldl (a : IdSetSize) {parts : List IdSetSize} (hne : parts ≠ []) :
    a.selects + parts.length ≤ (parts.foldl (fun acc b => acc.beside b.wrapped) a).widest := by
  induction parts generalizing a with
  | nil => exact absurd rfl hne
  | cons b rest ih =>
    cases rest with
    | nil => exact Nat.le_max_left _ _
    | cons c more =>
      have hrest := ih (a.beside b.wrapped) (List.cons_ne_nil c more)
      have hselects : (a.beside b.wrapped).selects = a.selects + 1 := rfl
      rw [hselects] at hrest
      rw [List.length_cons, List.foldl_cons]
      omega

theorem le_widest_compound {parts : List IdSetSize} (h : 2 ≤ parts.length) :
    parts.length ≤ (compound parts).widest := by
  rcases parts with _ | ⟨a, _ | ⟨b, rest⟩⟩
  · simp at h
  · simp at h
  · have hle := le_widest_foldl a.wrapped (List.cons_ne_nil b rest)
    have hone : a.wrapped.selects = 1 := rfl
    rw [hone] at hle
    have hcompound : compound (a :: b :: rest) = (b :: rest).foldl (fun acc b => acc.beside b.wrapped) a.wrapped := rfl
    rw [hcompound, List.length_cons]
    omega

end IdSetSize

theorem IdSet.length_sizes (sets : List IdSet) : (sizes sets).length = sets.length := by
  induction sets with
  | nil => rfl
  | cons s rest ih => rw [sizes, List.length_cons, List.length_cons, ih]

theorem Compile.length_nodes? {ns : List PlanNode} {sets : List IdSet} (h : nodes? ns = .ok sets) :
    sets.length = ns.length := by
  induction ns generalizing sets with
  | nil =>
    rw [nodes?] at h
    rw [← Except.ok.inj h]
    rfl
  | cons n rest ih =>
    rw [nodes?] at h
    obtain ⟨first, _, h⟩ := ok_of_bind h
    obtain ⟨more, hmore, h⟩ := ok_of_bind h
    rw [← Except.ok.inj h, List.length_cons, List.length_cons, ih hmore]

variable {definitions : List Definition} {sort : List SortKey} {ss : List Selector} {p : Plan} {s : Statement}

theorem Planner.length_alternatives {nodes : List PlanNode} (h : alternatives definitions sort ss = .ok nodes) :
    nodes.length = ss.length := by
  induction ss generalizing nodes with
  | nil =>
    rw [alternatives] at h
    rw [← Except.ok.inj h]
    rfl
  | cons s rest ih =>
    obtain ⟨_, first, more, _, _, hmore, rfl⟩ := alternatives_cons_ok h
    rw [List.length_cons, List.length_cons, ih hmore]

theorem Selector.ofJson?_or_replicate {v : Json} {s : Selector} (h : read? true v = .ok s) (n : Nat) :
    ofJson? (.object [("$or", .array (List.replicate (n + 1) v))]) = .ok (.or (List.replicate (n + 1) s)) := by
  have hitems : ∀ n, items? true (List.replicate n v) = .ok (List.replicate n s) := by
    intro n
    induction n with
    | zero => rfl
    | succ n ih => simp only [List.replicate_succ, items?, h, ih, bind, Except.bind]
  have hclause : clause? false "$or" (.array (List.replicate (n + 1) v)) = .ok (.or (List.replicate (n + 1) s)) := by
    unfold clause?
    simp only [hitems, bind, Except.bind]
    rfl
  simp only [ofJson?, read?, clauses?, hclause, bind, Except.bind]
  rfl

theorem Selector.isTextFree_or_replicate {s : Selector} (h : s.isTextFree = true) (n : Nat) :
    (or (List.replicate n s)).isTextFree = true := by
  rw [isTextFree]
  induction n with
  | zero => rfl
  | succ n ih =>
    rw [List.replicate_succ, areTextFree, h, ih]
    rfl

namespace Plan

theorem exists_make_or_replicate {s : Selector} {q : Plan} (h : make s definitions [] = .ok q) (n : Nat) :
    ∃ p, make (.or (List.replicate (n + 1) s)) definitions [] = .ok p := by
  obtain ⟨parts, hparts, hroot, horder, _⟩ := Planner.make_ok h
  have hnodes : ∀ n, Planner.alternatives definitions [] (List.replicate n s) = .ok (List.replicate n q.root) := by
    intro n
    induction n with
    | zero => rfl
    | succ n ih =>
      simp only [List.replicate_succ, Planner.alternatives, hparts, hroot, ih, bind, Except.bind]
  have hread : ∃ d, Planner.orderIndex (.or (List.replicate (n + 1) q.root)) [] = .ok d := by
    obtain ⟨hmem, _⟩ := Planner.orderIndex_ok horder
    have hmore : q.orderIndex ∈ (PlanNode.or (List.replicate (n + 1) q.root)).scans ++
        (PlanNode.or (List.replicate (n + 1) q.root)).texts := by
      rw [List.replicate_succ, PlanNode.scans, PlanNode.scansOf, PlanNode.texts, PlanNode.searches,
        PlanNode.searchesOf, List.map_append]
      rcases List.mem_append.mp hmem with hmem | hmem
      · exact List.mem_append_left _ (List.mem_append_left _ hmem)
      · exact List.mem_append_right _ (List.mem_append_left _ hmem)
    obtain ⟨d, rest, heq⟩ := List.exists_cons_of_ne_nil (List.ne_nil_of_mem hmore)
    refine ⟨d, ?_⟩
    unfold Planner.orderIndex
    rw [heq]
    rfl
  obtain ⟨d, hd⟩ := hread
  refine ⟨{ root := .or (List.replicate (n + 1) q.root), orderIndex := d, sort := [] }, ?_⟩
  have hone : Planner.conclude definitions [] { nodes := [.or (List.replicate (n + 1) q.root)] } =
      .ok (.or (List.replicate (n + 1) q.root)) := rfl
  simp only [make, Planner.gather, hnodes, hone, hd, bind, Except.bind]

theorem root_of_or (h : make (.or ss) definitions sort = .ok p) :
    ∃ nodes, p.root = .or nodes ∧ nodes.length = ss.length := by
  obtain ⟨parts, hparts, hroot, _, _⟩ := Planner.make_ok h
  obtain ⟨nodes, hnodes, rfl⟩ := Planner.gather_or_ok hparts
  rw [Planner.conclude_eq] at hroot
  exact ⟨nodes, (Except.ok.inj hroot).symm, Planner.length_alternatives hnodes⟩

theorem isWithinLimits_of_or (hlen : Statement.maxSelects < ss.length) (h : make (.or ss) definitions sort = .ok p)
    {skip : Nat} {limit? : Option Nat} (hs : p.statement? skip limit? = .ok s) : s.isWithinLimits = false := by
  obtain ⟨nodes, hroot, hcount⟩ := root_of_or h
  obtain ⟨sets, hids, hsets⟩ : ∃ sets, s.ids = .union sets ∧ sets.length = ss.length := by
    unfold statement? at hs
    rw [hroot, Compile.node?] at hs
    obtain ⟨columns, _, hs⟩ := ok_of_bind hs
    obtain ⟨ids, hids, hs⟩ := ok_of_bind hs
    obtain ⟨sets, hsets, hids⟩ := ok_of_bind hids
    rw [← Except.ok.inj hs]
    exact ⟨sets, (Except.ok.inj hids).symm, (Compile.length_nodes? hsets).trans hcount⟩
  have hwide : Statement.maxSelects < s.ids.size.widest := by
    have hmany : 2 ≤ Statement.maxSelects := by decide
    have hlength : 2 ≤ (IdSet.sizes sets).length := by rw [IdSet.length_sizes]; omega
    have hle := IdSetSize.le_widest_compound hlength
    rw [IdSet.length_sizes, hsets] at hle
    have hsize : s.ids.size = IdSetSize.compound (IdSet.sizes sets) := by
      rw [hids]
      rfl
    rw [hsize]
    omega
  unfold Statement.isWithinLimits
  have hnot : decide (s.ids.size.widest ≤ Statement.maxSelects) = false := by simpa using hwide
  simp [hnot]

end Plan

end DocIndex
