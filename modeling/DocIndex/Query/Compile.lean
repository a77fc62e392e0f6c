import DocIndex.Query.Plan
import DocIndex.Query.Request
import DocIndex.Query.Statement

/-! # From plans to statements

A scan becomes conditions on the rows of one table. Conditions that have to be met by one row share a
row; a negative condition takes the documents away that have any matching value. A value of a type that
the column of a field does not admit matches nothing. A plan over several tables reads all of them, so
that a document without rows in the ordering table is found all the same.
-/

namespace DocIndex

namespace Definition

def column? (d : Definition) (path : String) : Except QueryError String :=
  match d.columnFor? path with
  | some column => .ok column
  | none => .error (.invalidQuery (.missingField d.name path))

/-- Whether a field can have this value. Every value is possible as long as the type is not known. -/
def admits (d : Definition) (path : String) (v : Json) : Bool :=
  match d.typeOf? path with
  | some t => FieldType.of? v == some t
  | none => true

end Definition

namespace Compile

def bind? (v : Json) : Except QueryError SqlValue :=
  match SqlValue.ofJson? v with
  | some x => .ok x
  | none => .error (.invalidQuery (.unboundValue v))

def bindAll? : List Json → Except QueryError (List SqlValue)
  | [] => .ok []
  | v :: rest => do
    let first ← bind? v
    .ok (first :: (← bindAll? rest))

def predicate? (d : Definition) (path : String) (c : Condition) : Except QueryError Predicate := do
  let column ← d.column? path
  match c with
  | .compare op v => if d.admits path v then .ok (.compare column op (← bind? v)) else .ok .never
  | .oneOf vs =>
    match ← bindAll? (vs.filter (d.admits path)) with
    | [] => .ok .never
    | bound => .ok (.oneOf column bound)
  | .present true => .ok (.present column)
  | c => .error (.invalidQuery (.rowCondition c.outline path))

def predicates? (d : Definition) : List (String × Condition) → Except QueryError (List Predicate)
  | [] => .ok []
  | (path, c) :: rest => do
    let first ← predicate? d path c
    .ok (first :: (← predicates? d rest))

def negative? (d : Definition) (path : String) (c : Condition) : Except QueryError IdSet := do
  let column ← d.column? path
  let having := IdSet.rows d.tableName [.present column]
  match c with
  | .not inner => .ok (.without having (.rows d.tableName [← predicate? d path inner]))
  | _ => .ok (.without (.rows d.tableName []) having)

def negatives? (d : Definition) : List (String × Condition) → Except QueryError (List IdSet)
  | [] => .ok []
  | (path, c) :: rest => do
    let first ← negative? d path c
    .ok (first :: (← negatives? d rest))

def scan? (d : Definition) (conditions : List (String × Condition)) : Except QueryError IdSet := do
  let positive := conditions.filter (!·.2.isNegative)
  let negative := conditions.filter (·.2.isNegative)
  let rows ←
    if positive.isEmpty && !negative.isEmpty then .ok []
    else do .ok [IdSet.rows d.tableName (← predicates? d positive)]
  .ok (.intersect (rows ++ (← negatives? d negative)))

mutual

def node? : PlanNode → Except QueryError IdSet
  | .scan index conditions => scan? index conditions
  | .text index search => .ok (.matching index.tableName search)
  | .and parts => do .ok (.intersect (← nodes? parts))
  | .or parts => do .ok (.union (← nodes? parts))

def nodes? : List PlanNode → Except QueryError (List IdSet)
  | [] => .ok []
  | n :: rest => do
    let first ← node? n
    .ok (first :: (← nodes? rest))

end

def sortColumns? (d : Definition) : List SortKey → Except QueryError (List String)
  | [] => .ok []
  | key :: rest => do
    let first ← d.column? key.path
    .ok (first :: (← sortColumns? d rest))

/-- What a table gives for the sort keys. All tables have the identifiers. -/
def branch (order : Definition) (sort : List SortKey) (columns : List String) (d : Definition) : Branch :=
  { table := d.tableName
    sortColumns := (sort.zip columns).map fun (key, column) =>
      if isBuiltin key.path || d.name == order.name then some column else none }

def largest : Nat := Nat.pow 2 63 - 1

end Compile

namespace Plan

def statement? (p : Plan) (skip : Nat) (limit? : Option Nat) : Except QueryError Statement := do
  let columns ← Compile.sortColumns? p.orderIndex p.sort
  let ids ← Compile.node? p.root
  .ok
    { branches := p.indexes.map (Compile.branch p.orderIndex p.sort columns)
      ids
      directions := p.sort.map (·.direction)
      breakTies := !p.sort.any (·.path == idColumn)
      limit := limit?.elim (-1) fun n => (min n Compile.largest : Nat)
      skip := (min skip Compile.largest : Nat) }

def render (p : Plan) (skip : Nat) (limit? : Option Nat) : Except QueryError Fragment := do
  let s ← p.statement? skip limit?
  s.fragment.mapError .malformedFragment

end Plan

namespace Query

def plan? (q : Query) (definitions : List Definition) : Except QueryError Plan := do
  Plan.make (← Selector.ofJson? q.selector) definitions q.sort

def compile (q : Query) (definitions : List Definition) : Except QueryError Fragment := do
  (← q.plan? definitions).render q.skip q.limit?

end Query

end DocIndex
