import DocIndex.Index.Definition
import DocIndex.Query.Selector
import DocIndex.Query.Sort

/-! # Plans

A plan answers a selector from indexes alone. Conditions that have to hold together form a group, which
one value index with all of their fields answers; groups and searches are combined as sets of documents.
Of several suitable indexes the one is taken whose leading field is constrained, then one that has the
sort fields, then the one with the fewest fields, then the first by name.
-/

namespace DocIndex

/-- A part of a plan. Each stands for a set of documents. -/
inductive PlanNode where
  /-- Conditions answered together from one value index. -/
  | scan (index : Definition) (conditions : List (String × Condition))
  | text (index : Definition) (search : String)
  | and (parts : List PlanNode)
  | or (parts : List PlanNode)
  deriving Repr

namespace PlanNode

mutual

def scans : PlanNode → List Definition
  | .scan index _ => [index]
  | .text _ _ => []
  | .and parts => scansOf parts
  | .or parts => scansOf parts

def scansOf : List PlanNode → List Definition
  | [] => []
  | n :: rest => n.scans ++ scansOf rest

end

mutual

def searches : PlanNode → List (Definition × String)
  | .scan _ _ => []
  | .text index search => [(index, search)]
  | .and parts => searchesOf parts
  | .or parts => searchesOf parts

def searchesOf : List PlanNode → List (Definition × String)
  | [] => []
  | n :: rest => n.searches ++ searchesOf rest

end

def texts (n : PlanNode) : List Definition := n.searches.map (·.1)

end PlanNode

structure Plan where
  root : PlanNode
  /-- The index whose table gives revision ids and sort values. -/
  orderIndex : Definition
  sort : List SortKey := []

namespace Plan

/-- Keep the first index of each name. -/
def distinct (seen : List String) : List Definition → List Definition
  | [] => []
  | d :: rest => if seen.contains d.name then distinct seen rest else d :: distinct (d.name :: seen) rest

/-- All indexes the plan reads, each once and the ordering index first. -/
def indexes (p : Plan) : List Definition := distinct [] (p.orderIndex :: p.root.scans ++ p.root.texts)

def searches (p : Plan) : List (Definition × String) := p.root.searches

end Plan

namespace Planner

def insertPath (path : String) : List String → List String
  | [] => [path]
  | p :: rest =>
    if path < p then path :: p :: rest else if path = p then p :: rest else p :: insertPath path rest

/-- The fields that a group of conditions constrains, sorted. Identifiers do not count. -/
def constrained (group : List (String × Condition)) : List String :=
  ((group.map (·.1)).filter (!isBuiltin ·)).foldr insertPath []

/-- What speaks against an index, most important first. -/
structure Rank where
  leadingFree : Bool
  missesSort : Bool
  size : Nat
  name : String
  deriving DecidableEq, Repr

namespace Rank

def isBelow (a b : Rank) : Bool :=
  if a.leadingFree ≠ b.leadingFree then b.leadingFree
  else if a.missesSort ≠ b.missesSort then b.missesSort
  else if a.size ≠ b.size then a.size < b.size
  else a.name < b.name

end Rank

def rank (paths : List String) (sort : List SortKey) (d : Definition) : Rank :=
  { leadingFree := match d.fields.head? with
      | some f => !paths.contains f.path
      | none => true
    missesSort := !sort.all fun key => d.covers key.path
    size := d.fields.length
    name := d.name }

def candidates (paths : List String) (definitions : List Definition) : List Definition :=
  definitions.filter fun d => d.kind == .value && paths.all d.covers

def best (paths : List String) (sort : List SortKey) : List Definition → Option Definition
  | [] => none
  | d :: rest =>
    match best paths sort rest with
    | none => some d
    | some e => if (rank paths sort e).isBelow (rank paths sort d) then some e else some d

def chooseIndex (definitions : List Definition) (sort : List SortKey) (group : List (String × Condition)) :
    Except QueryError Definition :=
  let paths := constrained group
  match best paths sort (candidates paths definitions) with
  | some d => .ok d
  | none => .error (.noSuitableIndex (if paths.isEmpty then .noValueIndex else .uncovered paths))

/-- Parts of a conjunction: the conditions of its group, and sets of other origin. -/
structure Parts where
  group : List (String × Condition) := []
  nodes : List PlanNode := []

/-- The plan of a conjunction. One without parts lists all documents of some index. -/
def conclude (definitions : List Definition) (sort : List SortKey) (parts : Parts) : Except QueryError PlanNode := do
  let nodes ←
    if parts.group.isEmpty && !parts.nodes.isEmpty then .ok parts.nodes
    else do
      let index ← chooseIndex definitions sort parts.group
      .ok (.scan index parts.group :: parts.nodes)
  match nodes with
  | [n] => .ok n
  | nodes => .ok (.and nodes)

mutual

def gather (definitions : List Definition) (sort : List SortKey) : Selector → Except QueryError Parts
  | .and parts => gatherAll definitions sort parts
  | .or parts => do .ok { nodes := [.or (← alternatives definitions sort parts)] }
  | .field path condition => .ok { group := [(path, condition)] }
  | .text search =>
    match definitions.find? (·.kind == .text) with
    | some index => .ok { nodes := [.text index search] }
    | none => .error (.noSuitableIndex .noTextIndex)

def gatherAll (definitions : List Definition) (sort : List SortKey) : List Selector → Except QueryError Parts
  | [] => .ok {}
  | s :: rest => do
    let first ← gather definitions sort s
    let more ← gatherAll definitions sort rest
    .ok { group := first.group ++ more.group, nodes := first.nodes ++ more.nodes }

def alternatives (definitions : List Definition) (sort : List SortKey) :
    List Selector → Except QueryError (List PlanNode)
  | [] => .ok []
  | s :: rest => do
    let first ← conclude definitions sort (← gather definitions sort s)
    .ok (first :: (← alternatives definitions sort rest))

end

/-- The index that orders the results: the first that is read, or the first value index that has all of
the sort fields. -/
def orderIndex (root : PlanNode) (sort : List SortKey) : Except QueryError Definition :=
  if sort.isEmpty then
    match root.scans ++ root.texts with
    | d :: _ => .ok d
    | [] => .error (.noSuitableIndex .unused)
  else
    match root.scans.find? fun d => sort.all fun key => d.covers key.path with
    | some d => .ok d
    | none => .error (.invalidSort (.uncovered (sort.map (·.path))))

end Planner

namespace Plan

def make (selector : Selector) (definitions : List Definition) (sort : List SortKey) : Except QueryError Plan := do
  let root ← Planner.conclude definitions sort (← Planner.gather definitions sort selector)
  let orderIndex ← Planner.orderIndex root sort
  .ok { root, orderIndex, sort }

end Plan

end DocIndex
