import DocIndex.Database
import DocIndex.Document.Store

/-! # Hosts

Indexes are kept over a document store that others use too. A host is what an index manager sees of the
world: it owns the database and asks the store for its sequence, its changes and its revisions. Each of
these requests may fail, and each may leave the world changed, because others act in the meantime.
-/

namespace DocIndex

structure Host (σ : Type) where
  database : σ → Database
  setDatabase : Database → σ → σ
  currentSequence : σ → Except StoreError Int × σ
  /-- At most `limit` changes after a sequence, ascending, one for each document. -/
  changesSince : (since : Int) → (limit : Nat) → σ → Except StoreError (List Revision) × σ
  revision? : (docId revId : String) → σ → Except StoreError (Option Revision)
  /-- How often an update follows a checkpoint that others have moved. -/
  patience : Nat

/-- A computation in a world. What it changed stays changed if it fails. -/
abbrev Action (σ α : Type) := ExceptT QueryError (StateM σ) α

namespace Host

variable {σ α : Type}

def ask (request : σ → Except StoreError α × σ) : Action σ α := fun s =>
  match request s with
  | (.ok a, s) => (.ok a, s)
  | (.error e, s) => (.error (.store e), s)

def look (h : Host σ) (read : Database → Except QueryError α) : Action σ α := fun s => (read (h.database s), s)

def transact (h : Host σ) (change : Database → Except QueryError Database) : Action σ Unit := fun s =>
  match change (h.database s) with
  | .ok db => (.ok (), h.setDatabase db s)
  | .error e => (.error e, s)

end Host

structure Local where
  store : Store := {}
  database : Database := {}

namespace Local

def host : Host Local where
  database := database
  setDatabase db s := { s with database := db }
  currentSequence s := (.ok s.store.sequence, s)
  changesSince since limit s := (.ok (s.store.changesSince since limit), s)
  revision? docId revId s := .ok (s.store.revision? docId revId)
  patience := 0

end Local

end DocIndex
