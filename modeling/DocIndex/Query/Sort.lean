import DocIndex.Document.Path
import DocIndex.Error

/-! # Sort lists -/

namespace DocIndex

inductive SortDirection where
  | ascending
  | descending
  deriving DecidableEq, Repr

structure SortKey where
  path : String
  direction : SortDirection := .ascending
  deriving DecidableEq, Repr

namespace SortKey

def read? : Json → Except SortFault SortKey
  | .string path => .ok { path }
  | .object [(path, direction)] =>
    match direction with
    | .string "asc" => .ok { path }
    | .string "desc" => .ok { path, direction := .descending }
    | _ => .error (.direction path)
  | v => .error (.entry v)

def ofJson? (v : Json) : Except SortFault SortKey := do
  let key ← read? v
  if Path.isValid key.path then .ok key else .error (.badPath key.path)

def listOfItems? : List Json → Except SortFault (List SortKey)
  | [] => .ok []
  | v :: rest => do
    let first ← ofJson? v
    .ok (first :: (← listOfItems? rest))

def listOfJson? : Json → Except QueryError (List SortKey)
  | .array items => (listOfItems? items).mapError .invalidSort
  | _ => .error (.invalidSort .notArray)

end SortKey

end DocIndex
