import DocIndex.Document.Error
import DocIndex.Document.Revision

/-! # The document store

The store keeps the history of every document, oldest revision first, and a change feed: for each
document one entry, at the sequence of its latest revision. Every write takes the next sequence; a
purge takes none and leaves no entry behind. Sequences are signed numbers of 64 bits.
-/

namespace DocIndex

structure Store where
  histories : List (String × List Revision) := []
  /-- Sequences in ascending order, each with the document that changed. -/
  feed : List (Int × String) := []
  sequence : Int := 0

namespace Store

def empty : Store := {}

def history (s : Store) (id : String) : List Revision :=
  match s.histories.find? (·.1 == id) with
  | some h => h.2
  | none => []

def winning? (s : Store) (id : String) : Option Revision := (s.history id).getLast?

def get? (s : Store) (id : String) : Option Revision := (s.winning? id).filter (!·.deleted)

def revision? (s : Store) (id revId : String) : Option Revision :=
  (s.history id).find? (·.revId == revId)

def count (s : Store) : Nat :=
  s.histories.countP fun h => match h.2.getLast? with
    | some r => !r.deleted
    | none => false

def appendTo (r : Revision) : List (String × List Revision) → List (String × List Revision)
  | [] => [(r.docId, [r])]
  | (id, revisions) :: rest =>
    if id = r.docId then (id, revisions ++ [r]) :: rest else (id, revisions) :: appendTo r rest

/-- Record a revision at the next sequence. It takes over the feed entry of the one before it. -/
def record (s : Store) (docId : String) (generation : Nat) (deleted : Bool) (body : Object) : Revision × Store :=
  let seq := s.sequence + 1
  let r : Revision := { docId, revId := Revision.makeId generation seq, sequence := seq, deleted, body }
  let feed := match s.winning? docId with
    | some previous => s.feed.filter (·.1 != previous.sequence)
    | none => s.feed
  (r, { histories := appendTo r s.histories, feed := feed ++ [(seq, docId)], sequence := seq })

/-- Ids are not empty and top-level fields do not start with an underscore. -/
def validate (docId : String) (body : Object) : Except StoreError Unit :=
  if docId.isEmpty then .error .emptyId
  else match body.keys.find? (fun k => k.toList.head? == some '_') with
    | some k => .error (.reservedField k)
    | none => .ok ()

def create (s : Store) (docId : String) (body : Object) : Except StoreError (Revision × Store) := do
  validate docId body
  match s.winning? docId with
  | some current =>
    if current.deleted then .ok (s.record docId (current.generation?.getD 0 + 1) false body)
    else .error (.conflict docId "" current.revId)
  | none => .ok (s.record docId 1 false body)

/-- The generation of the current revision, which has to be `revId` and not deleted. -/
def currentGeneration (s : Store) (docId revId : String) : Except StoreError Nat :=
  match s.winning? docId with
  | none => .error (.notFound docId)
  | some current =>
    if current.revId ≠ revId ∨ current.deleted then .error (.conflict docId revId current.revId)
    else .ok (current.generation?.getD 0)

def update (s : Store) (docId revId : String) (body : Object) : Except StoreError (Revision × Store) := do
  validate docId body
  let generation ← s.currentGeneration docId revId
  .ok (s.record docId (generation + 1) false body)

def delete (s : Store) (docId revId : String) : Except StoreError (Revision × Store) := do
  let generation ← s.currentGeneration docId revId
  .ok (s.record docId (generation + 1) true [])

def purge (s : Store) (docId : String) : Bool × Store :=
  match s.histories.find? (·.1 == docId) with
  | none => (false, s)
  | some h =>
    let feed := match h.2.getLast? with
      | some r => s.feed.filter (·.1 != r.sequence)
      | none => s.feed
    (true, { s with histories := s.histories.filter (·.1 != docId), feed })

/-- The largest number of 64 bits, `2 ^ 63 - 1`. -/
def maxSequence : Int := 9223372036854775807

/-- The last sequence that a change can be asked for, also for a store that has gone past the largest number. -/
def ceiling (s : Store) : Int := max maxSequence s.sequence

/-- The first `limit` changes after a sequence, ascending, each as the latest revision of its document. They begin
with the next sequence; the last one has none, and the changes after it begin with itself. -/
def changesSince (s : Store) (since : Int) (limit : Nat) : List Revision :=
  ((s.feed.filter (min (since + 1) s.ceiling ≤ ·.1)).take limit).filterMap fun entry => s.winning? entry.2

end Store

end DocIndex
