import DocIndex.Proofs.Query.Compiled
import DocIndex.Proofs.Query.Text

/-! # What placeholders stand for

The values of a compiled query are those that its conditions compare with, as far as the columns admit them,
then come the limit and the number of results to skip. Within a group positive conditions go before negative
ones. Every value belongs to the placeholder behind the column that it is compared with.
-/

namespace DocIndex

/-- The slots of a condition on a field: one for each operand of a type that the column admits. -/
def Condition.slots (d : Definition) (path : String) : Condition → List Slot
  | .compare op v =>
    if d.admits path v then [⟨quoteIdentifier (d.columnOf path) ++ " " ++ op.text ++ " ", v.cell⟩] else []
  | .oneOf vs =>
    Slot.listed (quoteIdentifier (d.columnOf path) ++ " IN (") ((vs.filter (d.admits path)).map Json.cell)
  | .present _ => []
  | .not inner => inner.slots d path

namespace PlanNode

mutual

/-- The slots of a plan, in the order of its text. -/
def slots : PlanNode → List Slot
  | .scan index conditions =>
    (conditions.filter (!·.2.isNegative) ++ conditions.filter (·.2.isNegative)).flatMap fun p => p.2.slots index p.1
  | .text index search => [⟨quoteIdentifier index.tableName ++ " MATCH ", .text search⟩]
  | .and parts => slotsOf parts
  | .or parts => slotsOf parts

def slotsOf : List PlanNode → List Slot
  | [] => []
  | n :: rest => n.slots ++ slotsOf rest

end

end PlanNode

namespace Plan

def slots (p : Plan) (skip : Nat) (limit? : Option Nat) : List Slot :=
  p.root.slots ++ [⟨" LIMIT ", .int (limit?.elim (-1) Compile.clamp)⟩, ⟨" OFFSET ", .int (Compile.clamp skip)⟩]

end Plan

namespace Compile

theorem slots_choice (column : String) (vs : List SqlValue) :
    (choice column vs).slots = Slot.listed (quoteIdentifier column ++ " IN (") vs := by
  cases vs <;> rfl

theorem slots_predicate (d : Definition) (path : String) (c : Condition) :
    (predicate d path c).slots = c.slots d path := by
  induction c with
  | compare op v =>
    unfold predicate Condition.slots
    split <;> rfl
  | oneOf vs => exact slots_choice _ _
  | present expected => rfl
  | not inner ih => exact ih

theorem slots_negative (d : Definition) (path : String) {c : Condition} (hsign : c.isNegative = true) :
    (negative d path c).slots = c.slots d path := by
  cases c with
  | compare op v => simp [Condition.isNegative] at hsign
  | oneOf vs => simp [Condition.isNegative] at hsign
  | present expected => rfl
  | not inner =>
    rw [negative, IdSet.slots, IdSet.slots, IdSet.slots, List.flatMap_singleton, List.flatMap_singleton,
      slots_predicate]
    rfl

theorem slots_scan (d : Definition) (group : List (String × Condition)) :
    (scan d group).slots = (PlanNode.scan d group).slots := by
  have hpositive : (IdSet.rows d.tableName
      ((group.filter (!·.2.isNegative)).map fun p => predicate d p.1 p.2)).slots =
      (group.filter (!·.2.isNegative)).flatMap fun p => p.2.slots d p.1 := by
    rw [IdSet.slots, List.flatMap_map]
    exact List.flatMap_congr fun p _ => slots_predicate d p.1 p.2
  have hnegative : ((group.filter (·.2.isNegative)).map fun p => negative d p.1 p.2).flatMap IdSet.slots =
      (group.filter (·.2.isNegative)).flatMap fun p => p.2.slots d p.1 := by
    rw [List.flatMap_map]
    exact List.flatMap_congr fun p hp => slots_negative d p.1 (List.mem_filter.mp hp).2
  unfold scan
  rw [IdSet.slots, IdSet.slotsOf_eq, List.flatMap_append, hnegative, PlanNode.slots, List.flatMap_append]
  refine congrArg (· ++ _) ?_
  split
  · rename_i hnone
    rw [Bool.and_eq_true, List.isEmpty_iff] at hnone
    rw [hnone.1]
    rfl
  · rw [List.flatMap_singleton, hpositive]

mutual

theorem slots_node : ∀ n : PlanNode, (node n).slots = n.slots
  | .scan index group => slots_scan index group
  | .text _ _ => rfl
  | .and parts => slots_nodes parts
  | .or parts => slots_nodes parts

theorem slots_nodes : ∀ ns : List PlanNode, IdSet.slotsOf (nodes ns) = PlanNode.slotsOf ns
  | [] => rfl
  | n :: rest => by rw [nodes, IdSet.slotsOf, PlanNode.slotsOf, slots_node n, slots_nodes rest]

end

end Compile

namespace Plan

variable {p : Plan}

theorem slots_statement (p : Plan) (skip : Nat) (limit? : Option Nat) :
    (p.statement skip limit?).slots = p.slots skip limit? :=
  congrArg (· ++ _) (Compile.slots_node p.root)

theorem Compiles.render_eq (h : p.Compiles) (skip : Nat) (limit? : Option Nat) :
    p.render skip limit? = .ok (.ofSlots (p.statement skip limit?).text (p.slots skip limit?)) := by
  unfold render
  rw [← slots_statement]
  simp only [h.statement?_eq, Statement.fragment_eq, bind, Except.bind]
  rfl

end Plan

namespace Query

variable {q : Query} {definitions : List Definition} {p : Plan}

/-- Every query that can be planned is written down, whatever its indexes are called. Its quotes are closed, and the
placeholders outside of them stand for the operands that the columns admit, for the searches, and for the page. -/
theorem compile_binds (h : q.plan? definitions = .ok p) :
    ∃ f, q.compile definitions = .ok f ∧ Counts f.text f.values.length ∧ Binds f.text (p.slots q.skip q.limit?) ∧
      f.values = (p.slots q.skip q.limit?).map (·.value) := by
  obtain ⟨s, hs, hp⟩ := ok_of_bind h
  have hrender := (Plan.compiles_of_make (Selector.ofJson?_requested hs) hp).render_eq q.skip q.limit?
  have hbinds := (p.statement q.skip q.limit?).binds
  rw [Plan.slots_statement] at hbinds
  refine ⟨.ofSlots (p.statement q.skip q.limit?).text (p.slots q.skip q.limit?), ?_, ?_, hbinds, rfl⟩
  · unfold compile
    rw [h]
    exact hrender
  · have hcounts := hbinds.counts
    rwa [← List.length_map] at hcounts

/-- An index whose name has quotes and a question mark. -/
def oddlyNamed : Definition :=
  { name := "who's \"new\"?", kind := .value
    fields := [{ path := "age", type? := some .number }, { path := "name", type? := some .string }] }

/-- A query with a negative condition before a positive one, and with an operand that no name can equal. -/
def oneOther : Query :=
  { selector := .object [("age", .object [("$ne", .number (.int 1))]),
      ("name", .object [("$gt", .string "b?"), ("$in", .array [.string "c", .number (.int 3)])])]
    skip := 1, limit? := some 2 }

theorem compile_binds_oddlyNamed : ∃ p f, oneOther.plan? [oddlyNamed] = .ok p ∧ oneOther.compile [oddlyNamed] = .ok f ∧
    Counts f.text f.values.length ∧ Binds f.text (p.slots 1 (some 2)) ∧
    f.values = [.text "b?", .text "c", .int 1, .int 2, .int 1] := by
  obtain ⟨p, hp⟩ : ∃ p, oneOther.plan? [oddlyNamed] = .ok p := ⟨_, rfl⟩
  obtain ⟨f, hf, hcounts, hbinds, hvalues⟩ := compile_binds hp
  refine ⟨p, f, hp, hf, hcounts, hbinds, ?_⟩
  obtain rfl := Except.ok.inj hp
  exact hvalues

/-- A number that is too large for a page is not bound as it is. -/
theorem not_compile_binds_unclamped : ¬ ∀ (v : Json) (q : Query) (definitions : List Definition) (p : Plan),
    ofJson? v = .ok q → (∀ d ∈ definitions, d.paths.Nodup) → q.plan? definitions = .ok p →
    ∃ f, q.compile definitions = .ok f ∧ Counts f.text f.values.length ∧
      f.values = p.root.slots.map (·.value) ++ [.int (q.limit?.elim (-1) Int.ofNat), .int q.skip] := by
  intro h
  obtain ⟨f, hf, _, hvalues⟩ := h (.object [("selector", .object []), ("skip", .number (.int 9223372036854775808))])
    { selector := .object [], skip := 9223372036854775808 } [oddlyNamed] _ rfl (by decide) rfl
  obtain rfl := Except.ok.inj hf
  have hlast := congrArg List.getLast? hvalues
  revert hlast
  decide

end Query

end DocIndex
