import DocIndex.Maintenance.Host

/-! # Results

A query finds documents by the revisions that were indexed. They are fetched from the store when the
results are read: a revision that is gone or a tombstone is passed over, and a failure stands for one
result only.
-/

namespace DocIndex

structure ResultSet where
  rows : List (String × String)
  /-- The top-level fields to return; all of them if absent. -/
  fields? : Option (List String) := none
  deriving DecidableEq, Repr

abbrev Lookup := (docId revId : String) → Except StoreError (Option Revision)

namespace ResultSet

def documentIds (s : ResultSet) : List String := s.rows.map (·.1)

def size (s : ResultSet) : Nat := s.rows.length

def isEmpty (s : ResultSet) : Bool := s.rows.isEmpty

def shape (fields? : Option (List String)) (r : Revision) : Revision :=
  match fields? with
  | some fields => r.project fields
  | none => r

def resolve (fields? : Option (List String)) (lookup : Lookup) (row : String × String) :
    Except QueryError (Option Revision) :=
  match lookup row.1 row.2 with
  | .ok (some r) => .ok (if r.deleted then none else some (shape fields? r))
  | .ok none => .ok none
  | .error e => .error (.store e)

/-- One step of reading results: a document or a failure, and the number of rows that remain. -/
structure Item where
  outcome : Except QueryError Revision
  remaining : Nat

def itemsOf (fields? : Option (List String)) (lookup : Lookup) : List (String × String) → List Item
  | [] => []
  | row :: rest =>
    match resolve fields? lookup row with
    | .ok (some r) => ⟨.ok r, rest.length⟩ :: itemsOf fields? lookup rest
    | .ok none => itemsOf fields? lookup rest
    | .error e => ⟨.error e, rest.length⟩ :: itemsOf fields? lookup rest

def items (s : ResultSet) (lookup : Lookup) : List Item := itemsOf s.fields? lookup s.rows

def documents (s : ResultSet) (lookup : Lookup) : Except QueryError (List Revision) :=
  (s.items lookup).mapM (·.outcome)

/-- A call of an iterator: the rows it looks up, its answer, and the rows it leaves ahead. -/
structure Call where
  visited : List (String × String)
  answer? : Option (Except QueryError Revision)
  ahead : List (String × String)

def next (fields? : Option (List String)) (lookup : Lookup) : List (String × String) → Call
  | [] => ⟨[], none, []⟩
  | row :: rest =>
    match resolve fields? lookup row with
    | .ok (some r) => ⟨[row], some (.ok r), rest⟩
    | .ok none =>
      let later := next fields? lookup rest
      { later with visited := row :: later.visited }
    | .error e => ⟨[row], some (.error e), rest⟩

def ahead (s : ResultSet) (lookup : Lookup) : Nat → List (String × String)
  | 0 => s.rows
  | n + 1 => (next s.fields? lookup (ahead s lookup n)).ahead

def call (s : ResultSet) (lookup : Lookup) (n : Nat) : Call := next s.fields? lookup (s.ahead lookup n)

end ResultSet

end DocIndex
