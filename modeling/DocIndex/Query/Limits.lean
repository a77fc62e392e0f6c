import DocIndex.Query.Statement

/-! # Limits of statements

The database takes a statement only if it is not too large: in the number of its values, in the number of
selects that a set operator joins, in columns, and in the height of its conditions. Conditions that are
joined by `AND` grow higher with each one, and a condition that never holds takes the place of all that it is
joined with. The height of a set of ids counts with the condition that uses it, unless the set stands in
parentheses behind `FROM`.
-/

namespace DocIndex

namespace Predicate

/-- Height of one condition. A list of one value is compared in two steps. -/
def height : Predicate → Nat
  | .never => 1
  | .oneOf _ [_] => 3
  | _ => 2

/-- Heights that are reached as further conditions are joined to some of this height. -/
def heightsFrom (height : Nat) : List Predicate → List Nat
  | [] => [height]
  | .never :: _ => [height, 1]
  | p :: rest => height :: heightsFrom (max height p.height + 1) rest

/-- Heights that are reached as conditions are joined one after the other. -/
def heights : List Predicate → List Nat
  | [] => [0]
  | .never :: _ => [1]
  | p :: rest => heightsFrom p.height rest

def valueCount : Predicate → Nat
  | .compare .. => 1
  | .oneOf _ vs => vs.length
  | _ => 0

end Predicate

/-- The measures of a set of ids that limits apply to. -/
structure IdSetSize where
  /-- Selects that stand side by side in its text. -/
  selects : Nat
  /-- Height of the conditions of these selects. -/
  exposed : Nat
  /-- Height of any conditions in it. -/
  height : Nat
  /-- Greatest height reached on the way, as conditions are joined. -/
  peak : Nat
  /-- Most selects that stand side by side anywhere in it. -/
  widest : Nat
  values : Nat
  deriving DecidableEq, Repr

namespace IdSetSize

def ofSelect (heights : List Nat) (values : Nat) : IdSetSize :=
  let height := heights.getLast?.getD 0
  { selects := 1, exposed := height, height, peak := heights.foldl max 0, widest := 1, values }

def beside (a b : IdSetSize) : IdSetSize :=
  { selects := a.selects + b.selects
    exposed := max a.exposed b.exposed
    height := max a.height b.height
    peak := max a.peak b.peak
    widest := max (a.selects + b.selects) (max a.widest b.widest)
    values := a.values + b.values }

def wrapped (a : IdSetSize) : IdSetSize := { a with selects := 1, exposed := 0 }

/-- Operands of a set operator. A single one stands for itself. -/
def compound : List IdSetSize → IdSetSize
  | [] => ofSelect [] 0
  | [a] => a
  | a :: rest => rest.foldl (fun acc b => acc.beside b.wrapped) a.wrapped

end IdSetSize

namespace IdSet

mutual

def size : IdSet → IdSetSize
  | .rows _ conditions => .ofSelect (Predicate.heights conditions) (conditions.map Predicate.valueCount).sum
  | .matching .. => .ofSelect [2] 1
  | .without left right => left.size.beside right.size
  | .intersect parts => .compound (sizes parts)
  | .union parts => .compound (sizes parts)

def sizes : List IdSet → List IdSetSize
  | [] => []
  | s :: rest => s.size :: sizes rest

end

mutual

def tables : IdSet → List String
  | .rows table _ => [table]
  | .matching table _ => [table]
  | .without left right => left.tables ++ right.tables
  | .intersect parts => tablesOf parts
  | .union parts => tablesOf parts

def tablesOf : List IdSet → List String
  | [] => []
  | s :: rest => s.tables ++ tablesOf rest

end

end IdSet

namespace Statement

/-- Selects that a set operator may join. -/
def maxSelects : Nat := 500

/-- Values of a statement. -/
def maxValues : Nat := 32766

/-- Columns of a select, and keys that its results are sorted by. -/
def maxColumns : Nat := 2000

/-- Height of a condition. -/
def maxHeight : Nat := 1000

def isWithinLimits (s : Statement) : Bool :=
  let ids := s.ids.size
  let outer := 1 + max 1 ids.exposed
  s.branches.length ≤ maxSelects && ids.widest ≤ maxSelects && ids.values + 2 ≤ maxValues &&
    (s.branches.length ≤ 1 || s.directions.length + 2 ≤ maxColumns) &&
    s.directions.length + (if s.breakTies then 1 else 0) ≤ maxColumns &&
    ids.peak ≤ maxHeight && outer + ids.height ≤ maxHeight

end Statement

end DocIndex
