import DocIndex.Proofs.Index.Rows
import DocIndex.Proofs.Query.Planning

/-! # What selectors ask for

Each conjunction is a group of conditions on fields, with the alternatives that have to hold besides. A
group is answered from one value index, which sees of a revision the scalars of its fields that have the
recorded type. A plan is right if it finds, group by group, what the indexes chosen for the groups admit.
-/

namespace DocIndex

def Json.cell (v : Json) : SqlValue := (SqlValue.ofJson? v).getD .null

/-- Whether a value meets a condition. Only values of one type are compared. -/
def Condition.IsMetBy (v : Json) : Condition → Prop
  | .compare op w => FieldType.of? w = FieldType.of? v ∧ op.admits (v.cell.order w.cell) = true
  | .oneOf ws => ∃ w ∈ ws, FieldType.of? w = FieldType.of? v ∧ v.cell.order w.cell = .eq
  | .present expected => expected = true
  | .not inner => ¬ inner.IsMetBy v

namespace Definition

/-- The values that an index has of a revision for a field: the scalar there, or the scalars of the array there,
that have the type of the field. -/
def valuesOf (d : Definition) (r : Revision) (path : String) : List Json :=
  (Index.scalars (r.field? path)).filter fun v => FieldType.of? v == d.typeOf? path

/-- An index admits a revision to a group of conditions. One choice of values meets all positive conditions at
once. -/
structure Admits (d : Definition) (group : List (String × Condition)) (r : Revision) : Prop where
  arrays_le : Index.arrays d.fields r ≤ 1
  positive : ∃ pick : String → Json, ∀ path c, (path, c) ∈ group → c.isNegative = false →
    pick path ∈ d.valuesOf r path ∧ c.IsMetBy (pick path)
  negated : ∀ path c, (path, .not c) ∈ group → d.valuesOf r path ≠ [] ∧ ∀ v ∈ d.valuesOf r path, ¬ c.IsMetBy v
  absent : ∀ path, (path, .present false) ∈ group → d.valuesOf r path = []

end Definition

namespace Selector

mutual

def conditions : Selector → List (String × Condition)
  | .and parts => conditionsOf parts
  | .or _ => []
  | .field path condition => [(path, condition)]
  | .text _ => []

def conditionsOf : List Selector → List (String × Condition)
  | [] => []
  | s :: rest => s.conditions ++ conditionsOf rest

end

mutual

def hasAlternatives : Selector → Bool
  | .and parts => haveAlternatives parts
  | .or _ => true
  | .field _ _ => false
  | .text _ => false

def haveAlternatives : List Selector → Bool
  | [] => false
  | s :: rest => s.hasAlternatives || haveAlternatives rest

end

mutual

def isTextFree : Selector → Bool
  | .and parts => areTextFree parts
  | .or parts => areTextFree parts
  | .field _ _ => true
  | .text _ => false

def areTextFree : List Selector → Bool
  | [] => true
  | s :: rest => s.isTextFree && areTextFree rest

end

/-- The group of a conjunction. Alternatives without any conditions beside them have no group. -/
def HasGroup (s : Selector) : Prop := s.conditions ≠ [] ∨ s.hasAlternatives = false

mutual

/-- Of all alternatives in a conjunction one holds. `admits` tells which groups hold. -/
def Chooses (admits : List (String × Condition) → Prop) : Selector → Prop
  | .and parts => ChoosesAll admits parts
  | .or parts => Offers admits parts
  | .field _ _ => True
  | .text _ => False

def ChoosesAll (admits : List (String × Condition) → Prop) : List Selector → Prop
  | [] => True
  | s :: rest => s.Chooses admits ∧ ChoosesAll admits rest

def Offers (admits : List (String × Condition) → Prop) : List Selector → Prop
  | [] => False
  | s :: rest => (s.HasGroup → admits s.conditions) ∧ s.Chooses admits ∨ Offers admits rest

end

/-- The selector holds: its group does, and of all its alternatives one does. -/
def Holds (admits : List (String × Condition) → Prop) (s : Selector) : Prop :=
  (s.HasGroup → admits s.conditions) ∧ s.Chooses admits

/-- A revision satisfies a selector, each group of which is answered from the index that is chosen for it. -/
def SatisfiedBy (definitions : List Definition) (sort : List SortKey) (r : Revision) : Selector → Prop :=
  Holds fun group => ∃ d, Planner.chooseIndex definitions sort group = .ok d ∧ d.Admits group r

end Selector

/-! ## Plans -/

namespace PlanNode

mutual

/-- A plan finds a document. `scan` tells what the scans of groups find, `text` what the searches do. -/
def Finds (scan : Definition → List (String × Condition) → Prop) (text : Definition → String → Prop) :
    PlanNode → Prop
  | .scan index conditions => scan index conditions
  | .text index search => text index search
  | .and parts => AllFind scan text parts
  | .or parts => AnyFinds scan text parts

def AllFind (scan : Definition → List (String × Condition) → Prop) (text : Definition → String → Prop) :
    List PlanNode → Prop
  | [] => True
  | n :: rest => n.Finds scan text ∧ AllFind scan text rest

def AnyFinds (scan : Definition → List (String × Condition) → Prop) (text : Definition → String → Prop) :
    List PlanNode → Prop
  | [] => False
  | n :: rest => n.Finds scan text ∨ AnyFinds scan text rest

end

variable {scan scan' ok : Definition → List (String × Condition) → Prop}
variable {text text' accepts : Definition → String → Prop}

theorem allFind_iff (ns : List PlanNode) : AllFind scan text ns ↔ ∀ n ∈ ns, n.Finds scan text := by
  induction ns with
  | nil => simp [AllFind]
  | cons n rest ih => rw [AllFind, ih, List.forall_mem_cons]

theorem anyFinds_iff (ns : List PlanNode) : AnyFinds scan text ns ↔ ∃ n ∈ ns, n.Finds scan text := by
  induction ns with
  | nil => simp [AnyFinds]
  | cons n rest ih => rw [AnyFinds, ih, List.exists_mem_cons_iff]

theorem allFind_append (ns ms : List PlanNode) :
    AllFind scan text (ns ++ ms) ↔ AllFind scan text ns ∧ AllFind scan text ms := by
  rw [allFind_iff, allFind_iff, allFind_iff, List.forall_mem_append]

mutual

theorem Runs.finds_congr (h : ∀ d g, ok d g → (scan d g ↔ scan' d g)) :
    ∀ {n : PlanNode}, n.Runs ok → (n.Finds scan text ↔ n.Finds scan' text')
  | .scan _ _, hn => h _ _ hn
  | .text _ _, hn => hn.elim
  | .and _, hn => AllRun.allFind_congr h hn.2
  | .or _, hn => AllRun.anyFinds_congr h hn

theorem AllRun.allFind_congr (h : ∀ d g, ok d g → (scan d g ↔ scan' d g)) :
    ∀ {ns : List PlanNode}, AllRun ok ns → (AllFind scan text ns ↔ AllFind scan' text' ns)
  | [], _ => Iff.rfl
  | _ :: _, hns => and_congr (Runs.finds_congr h hns.1) (AllRun.allFind_congr h hns.2)

theorem AllRun.anyFinds_congr (h : ∀ d g, ok d g → (scan d g ↔ scan' d g)) :
    ∀ {ns : List PlanNode}, AllRun ok ns → (AnyFinds scan text ns ↔ AnyFinds scan' text' ns)
  | [], _ => Iff.rfl
  | _ :: _, hns => or_congr (Runs.finds_congr h hns.1) (AllRun.anyFinds_congr h hns.2)

end

/-- What a plan finds, one of its scans or searches finds. -/
def Shows (scan : Definition → List (String × Condition) → Prop) (text : Definition → String → Prop)
    (n : PlanNode) : Prop :=
  (∃ d ∈ n.scans, ∃ g, scan d g) ∨ ∃ s ∈ n.searches, text s.1 s.2

theorem Shows.mono {n m : PlanNode} (h : n.Shows scan text) (hscans : ∀ d ∈ n.scans, d ∈ m.scans)
    (hsearches : ∀ s ∈ n.searches, s ∈ m.searches) : m.Shows scan text := by
  rcases h with ⟨d, hd, hg⟩ | ⟨s, hs, ht⟩
  · exact Or.inl ⟨d, hscans d hd, hg⟩
  · exact Or.inr ⟨s, hsearches s hs, ht⟩

mutual

theorem Uses.shows : ∀ {n : PlanNode}, n.Uses ok accepts → n.Finds scan text → n.Shows scan text
  | .scan d g, _, hf => Or.inl ⟨d, List.mem_singleton_self d, g, hf⟩
  | .text d search, _, hf => Or.inr ⟨(d, search), List.mem_singleton_self _, hf⟩
  | .and [], hn, _ => absurd rfl hn.1
  | .and (_ :: _), hn, hf =>
    (Uses.shows hn.2.1 hf.1).mono (fun _ => List.mem_append_left _) fun _ => List.mem_append_left _
  | .or _, hn, hf => AllUse.shows hn hf

theorem AllUse.shows : ∀ {ns : List PlanNode}, AllUse ok accepts ns → AnyFinds scan text ns →
    (PlanNode.or ns).Shows scan text
  | [], _, hf => hf.elim
  | _ :: _, hns, .inl hf =>
    (Uses.shows hns.1 hf).mono (fun _ => List.mem_append_left _) fun _ => List.mem_append_left _
  | _ :: _, hns, .inr hf =>
    (AllUse.shows hns.2 hf).mono (fun _ => List.mem_append_right _) fun _ => List.mem_append_right _

end

end PlanNode

namespace Planner

open PlanNode

variable {definitions : List Definition} {sort : List SortKey} (scan : Definition → List (String × Condition) → Prop)
variable (text : Definition → String → Prop)

theorem intersection_finds (nodes : List PlanNode) :
    (intersection nodes).Finds scan text ↔ AllFind scan text nodes := by
  rcases nodes with _ | ⟨n, _ | ⟨m, rest⟩⟩
  · simp [intersection, Finds]
  · simp [intersection, AllFind]
  · simp [intersection, Finds]

theorem conclude_finds {parts : Parts} {n : PlanNode} (h : conclude definitions sort parts = .ok n) :
    n.Finds scan text ↔
      (parts.group ≠ [] ∨ parts.nodes = [] →
        ∃ d, chooseIndex definitions sort parts.group = .ok d ∧ scan d parts.group) ∧
      AllFind scan text parts.nodes := by
  rcases conclude_ok h with ⟨hgroup, hnodes, rfl⟩ | ⟨hgroup, d, hindex, rfl⟩
  · rw [intersection_finds]
    simp [hgroup, hnodes]
  · rw [intersection_finds]
    simp [AllFind, Finds, hgroup, hindex]

mutual

theorem gather_finds : ∀ (s : Selector) {parts : Parts}, s.isTextFree = true →
    gather definitions sort s = .ok parts →
    parts.group = s.conditions ∧ (parts.nodes = [] ↔ s.hasAlternatives = false) ∧
    (AllFind scan text parts.nodes ↔
      s.Chooses fun group => ∃ d, chooseIndex definitions sort group = .ok d ∧ scan d group)
  | .and ss, parts, ht, h => gatherAll_finds ss ht h
  | .or ss, parts, ht, h => by
    obtain ⟨nodes, hs, rfl⟩ := gather_or_ok h
    refine ⟨rfl, by simp [Selector.hasAlternatives], ?_⟩
    simp only [AllFind, Finds, and_true, Selector.Chooses]
    exact alternatives_finds ss ht hs
  | .field path condition, parts, _, h => by
    rw [gather] at h
    rw [← Except.ok.inj h]
    exact ⟨rfl, by simp [Selector.hasAlternatives], by simp [AllFind, Selector.Chooses]⟩
  | .text search, parts, ht, _ => by simp [Selector.isTextFree] at ht

theorem gatherAll_finds : ∀ (ss : List Selector) {parts : Parts}, Selector.areTextFree ss = true →
    gatherAll definitions sort ss = .ok parts →
    parts.group = Selector.conditionsOf ss ∧ (parts.nodes = [] ↔ Selector.haveAlternatives ss = false) ∧
    (AllFind scan text parts.nodes ↔
      Selector.ChoosesAll (fun group => ∃ d, chooseIndex definitions sort group = .ok d ∧ scan d group) ss)
  | [], parts, _, h => by
    rw [gatherAll] at h
    rw [← Except.ok.inj h]
    exact ⟨rfl, by simp [Selector.haveAlternatives], by simp [AllFind, Selector.ChoosesAll]⟩
  | s :: rest, parts, ht, h => by
    rw [Selector.areTextFree, Bool.and_eq_true] at ht
    obtain ⟨first, more, hfirst, hmore, rfl⟩ := gatherAll_cons_ok h
    obtain ⟨hgroup, hnodes, hfinds⟩ := gather_finds s ht.1 hfirst
    obtain ⟨hgroup', hnodes', hfinds'⟩ := gatherAll_finds rest ht.2 hmore
    refine ⟨by rw [hgroup, hgroup', Selector.conditionsOf], ?_, ?_⟩
    · rw [List.append_eq_nil_iff, hnodes, hnodes', Selector.haveAlternatives, Bool.or_eq_false_iff]
    · rw [allFind_append, hfinds, hfinds', Selector.ChoosesAll]

theorem alternatives_finds : ∀ (ss : List Selector) {nodes : List PlanNode}, Selector.areTextFree ss = true →
    alternatives definitions sort ss = .ok nodes →
    (AnyFinds scan text nodes ↔
      Selector.Offers (fun group => ∃ d, chooseIndex definitions sort group = .ok d ∧ scan d group) ss)
  | [], nodes, _, h => by
    rw [alternatives] at h
    rw [← Except.ok.inj h]
    simp [AnyFinds, Selector.Offers]
  | s :: rest, nodes, ht, h => by
    rw [Selector.areTextFree, Bool.and_eq_true] at ht
    obtain ⟨parts, first, more, hparts, hfirst, hmore, rfl⟩ := alternatives_cons_ok h
    obtain ⟨hgroup, hnodes, hfinds⟩ := gather_finds s ht.1 hparts
    rw [AnyFinds, Selector.Offers, conclude_finds scan text hfirst, alternatives_finds rest ht.2 hmore,
      Selector.HasGroup, hfinds, hgroup, hnodes]

end

/-- The plan of a selector finds what the selector asks for. -/
theorem make_finds {s : Selector} {p : Plan} (ht : s.isTextFree = true) (h : Plan.make s definitions sort = .ok p) :
    p.root.Finds scan text ↔ s.Holds fun group => ∃ d, chooseIndex definitions sort group = .ok d ∧ scan d group := by
  obtain ⟨parts, hparts, hroot, _, _⟩ := make_ok h
  obtain ⟨hgroup, hnodes, hfinds⟩ := gather_finds scan text s ht hparts
  rw [conclude_finds scan text hroot, Selector.Holds, Selector.HasGroup, hfinds, hgroup, hnodes]

end Planner

end DocIndex
