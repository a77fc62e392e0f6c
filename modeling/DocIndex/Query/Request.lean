import DocIndex.Query.Selector
import DocIndex.Query.Sort

/-! # Queries

A query is a selector with a page, a projection and a sort list. Its request form is an object; options
are read in the order of their keys, and the selector has to be there before any of them counts.
-/

namespace DocIndex

structure Query where
  selector : Json
  skip : Nat := 0
  /-- At most this many results; all of them if absent. -/
  limit? : Option Nat := none
  /-- The top-level fields to return; all of them if absent. -/
  fields? : Option (List String) := none
  sort : List SortKey := []

namespace Query

def count? (key : String) (v : Json) : Except QueryError Nat :=
  match v with
  | .number (.int i) => if 0 ≤ i then .ok i.toNat else .error (.invalidQuery (.count key))
  | _ => .error (.invalidQuery (.count key))

def strings? : List Json → Option (List String)
  | [] => some []
  | .string s :: rest => (strings? rest).map (s :: ·)
  | _ => none

def option? (q : Query) (key : String) (v : Json) : Except QueryError Query :=
  if key = "selector" then .ok q
  else if key = "skip" then (count? key v).map fun n => { q with skip := n }
  else if key = "limit" then (count? key v).map fun n => { q with limit? := some n }
  else if key = "fields" then
    match v.asArray?.bind strings? with
    | some fields => .ok { q with fields? := some fields }
    | none => .error (.invalidQuery .fieldList)
  else if key = "sort" then (SortKey.listOfJson? v).map fun sort => { q with sort }
  else .error (.invalidQuery (.unknownOption key))

def options? (q : Query) : List (String × Json) → Except QueryError Query
  | [] => .ok q
  | (key, v) :: rest => do (← q.option? key v).options? rest

def ofJson? : Json → Except QueryError Query
  | .object members =>
    match Object.get? members "selector" with
    | some selector => options? { selector } members
    | none => .error (.invalidQuery .noSelector)
  | _ => .error (.invalidQuery .queryNotObject)

def isTopLevel (field : String) : Bool := !field.isEmpty && !field.toList.contains '.'

def validate (q : Query) : Except QueryError Unit :=
  match (q.fields?.getD []).find? (!isTopLevel ·) with
  | some field => .error (.invalidQuery (.nestedProjection field))
  | none => .ok ()

end Query

end DocIndex
