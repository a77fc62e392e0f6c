import DocIndex.Database
import DocIndex.Query.Limits

/-! # What statements mean

An `IdSet` denotes the documents it lists, in terms of the rows of the tables it names. A statement
takes the rows of these documents, makes one result of the rows of each document, sorts the results and
cuts out a page. A comparison with null never holds. The least and greatest values of a column leave
nulls out; where there are only nulls, the result has none, and it comes first ascending and last
descending.

All tables have to be there and the limits to be kept before anything is read. Ids are looked for when there
is a row that may have one of them, and no set of ids is read whose documents would be left out anyway.
-/

namespace DocIndex

namespace Predicate

def holds (t : Table) (r : Row) : Predicate → Bool
  | .never => false
  | .compare column op v =>
    let cell := t.cell r column
    !cell.isNull && !v.isNull && op.admits (cell.order v)
  | .oneOf column vs =>
    let cell := t.cell r column
    !cell.isNull && vs.any fun v => !v.isNull && cell.order v == .eq
  | .present column => !(t.cell r column).isNull

end Predicate

namespace IdSet

mutual

def ids (db : Database) : IdSet → Except SqlFault (List String)
  | .rows table conditions => do
    let t ← db.table? table
    .ok (((← t.rows?).filter fun r => conditions.all (·.holds t r)).map (·.docId))
  | .matching table search => do
    let t ← db.table? table
    .ok ((← t.matching? search).map (·.docId))
  | .without left right => do
    let found ← left.ids db
    if found.isEmpty then .ok []
    else do
      let others ← right.ids db
      .ok (found.filter (!others.contains ·))
  | .intersect [] => .ok []
  | .intersect (first :: rest) => do common db (← first.ids db) rest
  | .union parts => together db parts

def common (db : Database) (found : List String) : List IdSet → Except SqlFault (List String)
  | [] => .ok found
  | s :: rest =>
    if found.isEmpty then .ok []
    else do
      let others ← s.ids db
      common db (found.filter others.contains) rest

def together (db : Database) : List IdSet → Except SqlFault (List String)
  | [] => .ok []
  | s :: rest => do
    let first ← s.ids db
    .ok (first ++ (← together db rest))

end

end IdSet

structure SourceRow where
  docId : String
  revId : String
  keys : List SqlValue

structure Found where
  docId : String
  revId : String
  keys : List SqlValue

namespace Statement

def rowsOf? (db : Database) (b : Branch) : Except SqlFault (List SourceRow) := do
  let t ← db.table? b.table
  .ok ((← t.rows?).map fun r =>
    { docId := r.docId, revId := r.revId
      keys := b.sortColumns.map fun c => c.elim .null (t.cell r) })

def source? (db : Database) : List Branch → Except SqlFault (List SourceRow)
  | [] => .ok []
  | b :: rest => do
    let first ← rowsOf? db b
    .ok (first ++ (← source? db rest))

/-- Whether `v` goes before `w` when the value of a sort column is chosen. -/
def betters (d : SortDirection) (v w : SqlValue) : Bool :=
  match d with
  | .ascending => v.order w == .lt
  | .descending => v.order w == .gt

/-- The row with the extreme value of a column: the first of those that are not null, or the last row. -/
def extreme (d : SortDirection) (position : Nat) (best : SourceRow) : List SourceRow → SourceRow
  | [] => best
  | r :: rest =>
    let v := r.keys.getD position .null
    let w := best.keys.getD position .null
    if w.isNull then extreme d position r rest
    else if !v.isNull && betters d v w then extreme d position r rest
    else extreme d position best rest

def keysOf (first : SourceRow) (rest : List SourceRow) (position : Nat) : List SortDirection → List SqlValue
  | [] => []
  | d :: more =>
    (extreme d position first rest).keys.getD position .null :: keysOf first rest (position + 1) more

/-- The row that gives the revision id of a document: with sort keys, the one with the extreme value of
the last key. -/
def witness (directions : List SortDirection) (first : SourceRow) (rest : List SourceRow) : SourceRow :=
  match directions.getLast? with
  | some d => extreme d (directions.length - 1) first rest
  | none => first

/-- Distinct ids in the order of their first occurrence. -/
def distinctIds : List SourceRow → List String
  | [] => []
  | r :: rest => r.docId :: (distinctIds rest).filter (· != r.docId)

def group (directions : List SortDirection) (rows : List SourceRow) (docId : String) : Option Found :=
  match rows.filter (·.docId == docId) with
  | [] => none
  | first :: rest =>
    some { docId, revId := (witness directions first rest).revId, keys := keysOf first rest 0 directions }

def orderBy (d : SortDirection) (v w : SqlValue) : Ordering :=
  match d with
  | .ascending => v.order w
  | .descending => w.order v

def orderKeys : List SortDirection → List SqlValue → List SqlValue → Ordering
  | d :: ds, v :: vs, w :: ws => (orderBy d v w).then (orderKeys ds vs ws)
  | _, _, _ => .eq

def isBefore (s : Statement) (a b : Found) : Bool :=
  let byKeys := orderKeys s.directions a.keys b.keys
  (if s.breakTies then byKeys.then (compareOfLessAndEq a.docId b.docId) else byKeys) != .gt

def results? (db : Database) (s : Statement) : Except SqlFault (List Found) := do
  let source ← source? db s.branches
  if source.isEmpty then .ok []
  else do
    let ids ← s.ids.ids db
    let rows := source.filter fun r => ids.contains r.docId
    .ok (((distinctIds rows).filterMap (group s.directions rows)).mergeSort s.isBefore)

def page {α : Type} (skip limit : Int) (results : List α) : List α :=
  let rest := results.drop skip.toNat
  if limit < 0 then rest else rest.take limit.toNat

def tables (s : Statement) : List String := s.branches.map (·.table) ++ s.ids.tables

def fault? {α : Type} : Except SqlFault α → Option SqlFault
  | .ok _ => none
  | .error e => some e

def prepare (db : Database) (s : Statement) : Except SqlFault Unit :=
  match s.tables.findSome? (fault? <| db.table? ·) with
  | some e => .error e
  | none => if s.isWithinLimits then .ok () else .error .tooLarge

def run (db : Database) (s : Statement) : Except SqlFault (List (String × String)) := do
  s.prepare db
  if s.limit = 0 then .ok []
  else do .ok ((page s.skip s.limit (← s.results? db)).map fun f => (f.docId, f.revId))

end Statement

end DocIndex
