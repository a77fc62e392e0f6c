import DocIndex.Document.Path
import DocIndex.Json.Value

/-! # Document revisions

A document is a JSON object under an id. Every write makes a new revision, whose id starts with its
generation: one more than the generation it was written on. A tombstone is a deleted revision; it has
no body.
-/

namespace DocIndex

structure Revision where
  docId : String
  revId : String
  sequence : Int
  deleted : Bool := false
  body : Object := []

namespace Revision

def descend : List String → Json → Option Json
  | [], v => some v
  | s :: rest, .object o =>
    match Object.get? o s with
    | some v => descend rest v
    | none => none
  | _ :: _, _ => none

def lookup? (body : Object) (path : String) : Option Json := descend (Path.segments path) (.object body)

/-- A field of the revision. Its two identifiers are fields too. -/
def field? (r : Revision) (path : String) : Option Json :=
  if path = "_id" then some (.string r.docId)
  else if path = "_rev" then some (.string r.revId)
  else lookup? r.body path

def project (r : Revision) (fields : List String) : Revision :=
  { r with body := r.body.restrict fields }

/-- The value of a text of decimal digits, at least one; a plus sign may stand in front. -/
def readCount? (text : List Char) : Option Nat :=
  let ds := match text with
    | '+' :: rest => rest
    | cs => cs
  if !ds.isEmpty && ds.all Char.isDigit then
    some (ds.foldl (fun n c => 10 * n + (c.toNat - '0'.toNat)) 0)
  else none

/-- The number in front of the first dash of a revision id, if it fits 64 bits. -/
def generationOf? (revId : String) : Option Nat :=
  let (head, tail) := revId.toList.span (· != '-')
  if tail.isEmpty then none else (readCount? head).filter (· < Nat.pow 2 64)

def generation? (r : Revision) : Option Nat := generationOf? r.revId

/-- A text of at least `width` characters, filled up with zeros in front. -/
def padZeros (width : Nat) (n : Nat) : List Char :=
  let ds := Nat.toDigits 10 n
  List.replicate (width - ds.length) '0' ++ ds

/-- The id of a revision: its generation and the sequence it is written at, which no other write has. -/
def makeId (generation : Nat) (sequence : Int) : String :=
  String.ofList (Nat.toDigits 10 generation ++ '-' :: padZeros 6 sequence.toNat)

end Revision

end DocIndex
