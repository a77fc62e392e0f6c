import DocIndex.Index.Definition
import DocIndex.Query.Selector
import DocIndex.Query.Sort
import DocIndex.Sql.Fragment

/-! # Statements

A statement reads the identifiers of documents from index tables. Which documents is told by an `IdSet`,
an expression over sets of document ids; the rows of a document are grouped into one result, sorted by
the least or greatest values of the sort columns. `Statement.fragment` writes it down, with a placeholder
for every value.
-/

namespace DocIndex

inductive Predicate where
  /-- The column admits no value of this type. -/
  | never
  | compare (column : String) (operator : Operator) (value : SqlValue)
  | oneOf (column : String) (values : List SqlValue)
  | present (column : String)
  deriving DecidableEq, Repr

inductive IdSet where
  /-- Documents with a row that satisfies all conditions. -/
  | rows (table : String) (conditions : List Predicate)
  /-- Documents with a row that matches a search text. -/
  | matching (table search : String)
  | without (left right : IdSet)
  | intersect (parts : List IdSet)
  | union (parts : List IdSet)
  deriving Repr

/-- A table that results are read from, with the column of each sort key that it has. -/
structure Branch where
  table : String
  sortColumns : List (Option String)
  deriving DecidableEq, Repr

structure Statement where
  /-- One table, or several whose rows are put together. -/
  branches : List Branch
  ids : IdSet
  /-- A direction for each sort column. -/
  directions : List SortDirection
  /-- Results with equal sort values are sorted by document id. -/
  breakTies : Bool
  /-- At most this many results; all of them if negative. -/
  limit : Int
  skip : Int

namespace Predicate

def placeholderList (count : Nat) : String := ", ".intercalate (List.replicate count "?")

def fragment : Predicate → Except FragmentMismatch Fragment
  | .never => Fragment.raw "0"
  | .compare column op v => Fragment.make (quoteIdentifier column ++ " " ++ op.text ++ " ?") [v]
  | .oneOf column vs =>
    Fragment.make (quoteIdentifier column ++ " IN (" ++ placeholderList vs.length ++ ")") vs
  | .present column => Fragment.raw (quoteIdentifier column ++ " IS NOT NULL")

def fragments : List Predicate → Except FragmentMismatch (List Fragment)
  | [] => .ok []
  | p :: rest => do
    let first ← p.fragment
    .ok (first :: (← fragments rest))

end Predicate

namespace IdSet

def select (table : String) : String :=
  "SELECT " ++ quoteIdentifier idColumn ++ " FROM " ++ quoteIdentifier table

/-- What stands before a statement that is an operand. -/
def opening : String := "SELECT " ++ quoteIdentifier idColumn ++ " FROM ("

/-- Join operands by a set operator. A single one stands for itself. -/
def compound (operator : String) (parts : List Fragment) : Except FragmentMismatch Fragment :=
  match parts with
  | [f] => .ok f
  | parts => do Fragment.join (← parts.mapM fun f => f.wrap opening ")") (" " ++ operator ++ " ")

mutual

def fragment : IdSet → Except FragmentMismatch Fragment
  | .rows table conditions => do
    let base ← Fragment.raw (select table)
    if conditions.isEmpty then .ok base
    else
      let clauses ← Predicate.fragments conditions
      .ok (base ++ (← (← Fragment.join clauses " AND ").wrap " WHERE " ""))
  | .matching table search =>
    Fragment.make (select table ++ " WHERE " ++ quoteIdentifier table ++ " MATCH ?") [.text search]
  | .without left right => do
    let a ← left.fragment
    let operator ← Fragment.raw " EXCEPT "
    .ok (a ++ operator ++ (← right.fragment))
  | .intersect parts => do compound "INTERSECT" (← fragments parts)
  | .union parts => do compound "UNION" (← fragments parts)

def fragments : List IdSet → Except FragmentMismatch (List Fragment)
  | [] => .ok []
  | s :: rest => do
    let first ← s.fragment
    .ok (first :: (← fragments rest))

end

end IdSet

namespace Statement

def columnText : Option String → String
  | some column => quoteIdentifier column
  | none => "NULL"

/-- The name that a sort column has when several tables are read. -/
def aliasName (position : Nat) : String := quoteIdentifier ("_sort" ++ toString position)

def aliased (position : Nat) : List (Option String) → List String
  | [] => []
  | c :: rest => (columnText c ++ " AS " ++ aliasName position) :: aliased (position + 1) rest

def branchText (b : Branch) : String :=
  "SELECT " ++ ", ".intercalate (quoteIdentifier idColumn :: quoteIdentifier revColumn :: aliased 0 b.sortColumns) ++
    " FROM " ++ quoteIdentifier b.table

def sourceText : List Branch → String
  | [b] => quoteIdentifier b.table
  | branches => "(" ++ " UNION ALL ".intercalate (branches.map branchText) ++ ")"

def sortNames (s : Statement) : List String :=
  match s.branches with
  | [b] => b.sortColumns.map columnText
  | _ => (List.range s.directions.length).map aliasName

def keyText (name : String) : SortDirection → String
  | .ascending => "MIN(" ++ name ++ ") ASC"
  | .descending => "MAX(" ++ name ++ ") DESC"

def orderText (s : Statement) : String :=
  ", ".intercalate ((s.sortNames.zip s.directions).map (fun (n, d) => keyText n d) ++
    if s.breakTies then [quoteIdentifier idColumn ++ " ASC"] else [])

def fragment (s : Statement) : Except FragmentMismatch Fragment := do
  let id := quoteIdentifier idColumn
  let head ← Fragment.raw ("SELECT " ++ id ++ ", " ++ quoteIdentifier revColumn ++ " FROM " ++
    sourceText s.branches ++ " WHERE " ++ id ++ " IN (")
  let ids ← s.ids.fragment
  let tail ← Fragment.make (") GROUP BY " ++ id ++ " ORDER BY " ++ s.orderText ++ " LIMIT ? OFFSET ?")
    [.int s.limit, .int s.skip]
  .ok (head ++ ids ++ tail)

end Statement

end DocIndex
