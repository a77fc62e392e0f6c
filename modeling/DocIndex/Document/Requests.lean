import DocIndex.Document.Store

/-! # Requests of a store

Clients reach a store by requests, which it serves one after the other. A request is answered by the revision that it
has written, or it is refused and changes nothing; a purge writes no revision.
-/

namespace DocIndex

namespace Store

/-- What a client asks of a store. -/
inductive Request where
  | create (docId : String) (body : Object)
  | update (docId revId : String) (body : Object)
  | delete (docId revId : String)
  | purge (docId : String)

inductive Reply where
  | written (r : Revision)
  | purged (found : Bool)
  | refused (e : StoreError)

def Reply.revision? : Reply → Option Revision
  | .written r => some r
  | _ => none

def replyTo (s : Store) : Except StoreError (Revision × Store) → Reply × Store
  | .ok (r, t) => (.written r, t)
  | .error e => (.refused e, s)

def serve (s : Store) : Request → Reply × Store
  | .create docId body => s.replyTo (s.create docId body)
  | .update docId revId body => s.replyTo (s.update docId revId body)
  | .delete docId revId => s.replyTo (s.delete docId revId)
  | .purge docId => (.purged (s.purge docId).1, (s.purge docId).2)

def after (s : Store) (requests : List Request) : Store := requests.foldl (fun s q => (s.serve q).2) s

/-- Requests with the replies to them. -/
def served (s : Store) : List Request → List (Request × Reply)
  | [] => []
  | q :: rest => (q, (s.serve q).1) :: served (s.serve q).2 rest

def written (s : Store) (requests : List Request) : List Revision :=
  (s.served requests).filterMap fun e => e.2.revision?

end Store

end DocIndex
