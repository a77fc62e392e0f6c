import DocIndex.Proofs.Index.Cells
import DocIndex.Proofs.Query.Replan
import DocIndex.Query.Compile

/-! # What plans compile to

Every plan of a selector that was read is compiled: its indexes have the fields that they are asked for, and
all that a request compares with can be bound. What comes out is a function of the plan.
-/

namespace DocIndex

variable {d : Definition} {path : String} {c : Condition} {group : List (String × Condition)}

namespace Definition

def columnOf (d : Definition) (path : String) : String := (d.columnFor? path).getD path

theorem columnFor?_eq (h : d.covers path = true) : d.columnFor? path = some (d.columnOf path) := by
  suffices hsome : ∃ column, d.columnFor? path = some column by
    obtain ⟨column, hcolumn⟩ := hsome
    rw [columnOf, hcolumn, Option.getD_some]
  rcases covers_cases h with hb | ⟨f, hf, rfl, hb⟩
  · exact ⟨path, if_pos hb⟩
  · rw [← map_fst_fieldColumns] at hf
    obtain ⟨p, hp, rfl⟩ := List.mem_map.mp hf
    have hb : isBuiltin p.1.path = false := hb
    unfold columnFor?
    rw [hb]
    obtain ⟨q, _, _, hfind⟩ := exists_find?_key (fun q : IndexField × String => q.1.path) hp
    rw [hfind]
    exact ⟨q.2, rfl⟩

theorem column?_eq (h : d.covers path = true) : d.column? path = .ok (d.columnOf path) := by
  simp only [column?, columnFor?_eq h]

/-- The index has all fields of a group that can be asked for. -/
structure Takes (d : Definition) (group : List (String × Condition)) : Prop where
  covers : ∀ p ∈ group, d.covers p.1 = true
  requested : ∀ p ∈ group, p.2.Requested

theorem Takes.filter (h : d.Takes group) (q : String × Condition → Bool) : d.Takes (group.filter q) :=
  ⟨fun p hp => h.covers p (List.mem_filter.mp hp).1, fun p hp => h.requested p (List.mem_filter.mp hp).1⟩

theorem takes_cons {p : String × Condition} :
    d.Takes (p :: group) ↔ (d.covers p.1 = true ∧ p.2.Requested) ∧ d.Takes group := by
  constructor
  · intro h
    exact ⟨⟨h.covers p List.mem_cons_self, h.requested p List.mem_cons_self⟩,
      fun q hq => h.covers q (List.mem_cons_of_mem _ hq), fun q hq => h.requested q (List.mem_cons_of_mem _ hq)⟩
  · rintro ⟨⟨hcovers, hrequested⟩, h⟩
    exact ⟨List.forall_mem_cons.mpr ⟨hcovers, h.covers⟩, List.forall_mem_cons.mpr ⟨hrequested, h.requested⟩⟩

end Definition

namespace Compile

/-! ## Conditions -/

/-- A list to choose from. Of an empty one nothing can be chosen. -/
def choice (column : String) : List SqlValue → Predicate
  | [] => .never
  | v :: rest => .oneOf column (v :: rest)

/-- What rows are asked for by a condition, or by the condition that is negated. -/
def predicate (d : Definition) (path : String) : Condition → Predicate
  | .compare op v => if d.admits path v then .compare (d.columnOf path) op v.cell else .never
  | .oneOf vs => choice (d.columnOf path) ((vs.filter (d.admits path)).map Json.cell)
  | .present _ => .present (d.columnOf path)
  | .not inner => predicate d path inner

def negative (d : Definition) (path : String) : Condition → IdSet
  | .not inner => .without (.rows d.tableName [.present (d.columnOf path)]) (.rows d.tableName [predicate d path inner])
  | _ => .without (.rows d.tableName []) (.rows d.tableName [.present (d.columnOf path)])

/-- The documents that a group finds: those of rows that match, less those that negative conditions take away. -/
def scan (d : Definition) (group : List (String × Condition)) : IdSet :=
  let positive := group.filter (!·.2.isNegative)
  let negated := group.filter (·.2.isNegative)
  .intersect ((if positive.isEmpty && !negated.isEmpty then []
    else [.rows d.tableName (positive.map fun p => predicate d p.1 p.2)]) ++
    negated.map fun p => negative d p.1 p.2)

theorem bind?_ok {v : Json} (h : v.isComparable = true) : bind? v = .ok v.cell ∧ v.cell.isNull = false := by
  cases v with
  | bool b => exact ⟨rfl, rfl⟩
  | string s => exact ⟨rfl, rfl⟩
  | number n =>
    refine ⟨rfl, ?_⟩
    cases n with
    | int i =>
      simp only [Json.cell, SqlValue.ofJson?, SqlValue.ofNumber]
      split <;> rfl
    | float x => rfl
  | null => simp [Json.isComparable] at h
  | array items => simp [Json.isComparable] at h
  | object members => simp [Json.isComparable] at h

theorem bindAll?_ok {vs : List Json} (h : ∀ v ∈ vs, v.isComparable = true) :
    bindAll? vs = .ok (vs.map Json.cell) := by
  induction vs with
  | nil => rfl
  | cons v rest ih =>
    have hv := (bind?_ok (h v List.mem_cons_self)).1
    have hrest := ih fun w hw => h w (List.mem_cons_of_mem _ hw)
    simp only [bindAll?, hv, hrest, bind, Except.bind, List.map_cons]

theorem predicate?_eq (hcovers : d.covers path = true) (hc : c.Comparing ∨ c = .present true) :
    predicate? d path c = .ok (predicate d path c) := by
  have hcolumn := Definition.column?_eq hcovers
  unfold predicate?
  rcases hc with hc | rfl
  · cases hc with
    | compare op v hv =>
      simp only [hcolumn, (bind?_ok hv).1, predicate, bind, Except.bind]
      split <;> rfl
    | oneOf vs hvs =>
      have hbound : bindAll? (vs.filter (d.admits path)) = .ok ((vs.filter (d.admits path)).map Json.cell) :=
        bindAll?_ok fun v hv => hvs v (List.mem_filter.mp hv).1
      simp only [hcolumn, hbound, predicate, bind, Except.bind]
      cases (vs.filter (d.admits path)).map Json.cell <;> rfl
  · simp only [hcolumn, predicate, bind, Except.bind]

theorem predicates?_eq (h : d.Takes group) (hsign : ∀ p ∈ group, p.2.isNegative = false) :
    predicates? d group = .ok (group.map fun p => predicate d p.1 p.2) := by
  induction group with
  | nil => rfl
  | cons p rest ih =>
    obtain ⟨⟨hcovers, hrequested⟩, hrest⟩ := Definition.takes_cons.mp h
    have hp := predicate?_eq hcovers (hrequested.positive (hsign p List.mem_cons_self))
    have hmore := ih hrest fun q hq => hsign q (List.mem_cons_of_mem _ hq)
    simp only [predicates?, hp, hmore, bind, Except.bind, List.map_cons]

theorem negative?_eq (hcovers : d.covers path = true) (hc : c.Requested) (hsign : c.isNegative = true) :
    negative? d path c = .ok (negative d path c) := by
  have hcolumn := Definition.column?_eq hcovers
  unfold negative?
  rcases hc.negative hsign with rfl | ⟨inner, hinner, rfl⟩
  · simp only [hcolumn, negative, bind, Except.bind]
  · simp only [hcolumn, predicate?_eq hcovers (Or.inl hinner), negative, bind, Except.bind]

theorem negatives?_eq (h : d.Takes group) (hsign : ∀ p ∈ group, p.2.isNegative = true) :
    negatives? d group = .ok (group.map fun p => negative d p.1 p.2) := by
  induction group with
  | nil => rfl
  | cons p rest ih =>
    obtain ⟨⟨hcovers, hrequested⟩, hrest⟩ := Definition.takes_cons.mp h
    have hp := negative?_eq hcovers hrequested (hsign p List.mem_cons_self)
    have hmore := ih hrest fun q hq => hsign q (List.mem_cons_of_mem _ hq)
    simp only [negatives?, hp, hmore, bind, Except.bind, List.map_cons]

theorem scan?_eq (h : d.Takes group) : scan? d group = .ok (scan d group) := by
  have hpositive := predicates?_eq (h.filter (!·.2.isNegative)) fun p hp => by simpa using (List.mem_filter.mp hp).2
  have hnegative := negatives?_eq (h.filter (·.2.isNegative)) fun p hp => (List.mem_filter.mp hp).2
  simp only [scan?, hpositive, hnegative, scan, bind, Except.bind]
  split <;> rfl

/-! ## Plans -/

mutual

def node : PlanNode → IdSet
  | .scan index group => scan index group
  | .text index search => .matching index.tableName search
  | .and parts => .intersect (nodes parts)
  | .or parts => .union (nodes parts)

def nodes : List PlanNode → List IdSet
  | [] => []
  | n :: rest => node n :: nodes rest

end

section

open PlanNode

variable {text : Definition → String → Prop}

mutual

theorem node?_eq : ∀ {n : PlanNode}, n.Uses Definition.Takes text → node? n = .ok (node n)
  | .scan _ _, hn => scan?_eq hn
  | .text _ _, _ => rfl
  | .and _, hn => by simp only [node?, nodes?_eq hn.2, node, bind, Except.bind]
  | .or _, hn => by simp only [node?, nodes?_eq hn, node, bind, Except.bind]

theorem nodes?_eq : ∀ {ns : List PlanNode}, AllUse Definition.Takes text ns → nodes? ns = .ok (nodes ns)
  | [], _ => rfl
  | _ :: _, hns => by simp only [nodes?, node?_eq hns.1, nodes?_eq hns.2, nodes, bind, Except.bind]

end

end

theorem sortColumns?_eq {sort : List SortKey} (h : ∀ key ∈ sort, d.covers key.path = true) :
    sortColumns? d sort = .ok (sort.map fun key => d.columnOf key.path) := by
  induction sort with
  | nil => rfl
  | cons key rest ih =>
    have hkey := Definition.column?_eq (h key List.mem_cons_self)
    have hrest := ih fun k hk => h k (List.mem_cons_of_mem _ hk)
    simp only [sortColumns?, hkey, hrest, bind, Except.bind, List.map_cons]

def clamp (n : Nat) : Int := (min n largest : Nat)

end Compile

namespace Plan

open Compile

variable {p : Plan} {s : Selector} {definitions : List Definition} {sort : List SortKey}

def statement (p : Plan) (skip : Nat) (limit? : Option Nat) : Statement :=
  { branches := p.indexes.map (branch p.orderIndex p.sort (p.sort.map fun key => p.orderIndex.columnOf key.path))
    ids := node p.root
    directions := p.sort.map (·.direction)
    breakTies := !p.sort.any (·.path == idColumn)
    limit := limit?.elim (-1) clamp
    skip := clamp skip }

/-- A plan whose indexes have what they are asked for, and that is ordered by one of them. -/
structure Compiles (p : Plan) : Prop where
  root : p.root.Uses Definition.Takes fun _ _ => True
  order : Planner.orderIndex p.root p.sort = .ok p.orderIndex

theorem Compiles.statement?_eq (h : p.Compiles) (skip : Nat) (limit? : Option Nat) :
    p.statement? skip limit? = .ok (p.statement skip limit?) := by
  have hcolumns := sortColumns?_eq (Planner.orderIndex_ok h.order).2
  simp only [statement?, hcolumns, node?_eq h.root, bind, Except.bind]
  rfl

theorem compiles_of_make (hr : s.Requested) (h : make s definitions sort = .ok p) : p.Compiles := by
  have hsearches : Planner.Searches definitions fun _ _ => True := fun _ _ _ => trivial
  obtain ⟨huses, horder, rfl⟩ := Planner.make_uses hr (Or.inr hsearches) h
  refine ⟨huses.mono (fun d _ group ha => ?_) fun _ _ _ => trivial, horder⟩
  exact ⟨(Planner.chooseIndex_ok ha.1).2.2, ha.2⟩

end Plan

end DocIndex
