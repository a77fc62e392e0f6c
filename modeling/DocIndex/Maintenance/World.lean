import DocIndex.Maintenance.Updater
import DocIndex.Manager

/-! # Stores and indexes in use

A store is written to while indexes are declared, deleted, rebuilt and kept up to date by any number of updaters. Any
of them may act between two steps of another. A request that is refused changes nothing.
-/

namespace DocIndex

/-- A store, the database of its indexes and those who work on them. -/
structure World where
  store : Store := {}
  database : Database := {}
  updaters : Nat → Option Updater := fun _ => none
  /-- All revisions that were ever written. -/
  written : List Revision := []
  /-- Where each index starts: its first checkpoint, or 0 after a rebuild. -/
  starts : String → Int := fun _ => 0

inductive Event where
  | create (docId : String) (body : Object)
  | update (docId revId : String) (body : Object)
  | delete (docId revId : String)
  | purge (docId : String)
  /-- Request an index that starts at a sequence which the store has reached before. -/
  | ensure (spec : IndexSpec) (tokenizer : String) (start : Int)
  | deleteIndex (name : String)
  /-- An index is found to be of another layout. -/
  | setLayout (index : String) (version : Int)
  /-- Open the database anew, which rebuilds indexes of an older layout. -/
  | reopen (settings : ConnectionSettings) (file : FileState) (key? : Option EncryptionKey)
  | startUpdate (updater : Nat) (index : String) (batchSize patience : Nat)
  | advance (updater : Nat)
  /-- A request of an updater is not answered. -/
  | fail (updater : Nat)

def Event.IsWrite : Event → Prop
  | .create .. | .update .. | .delete .. | .purge _ => True
  | _ => False

namespace World

/-- The world after a revision was written, or as it was if the write is refused. -/
def wrote (w : World) : Except StoreError (Revision × Store) → World
  | .ok (r, store) => { w with store, written := w.written ++ [r] }
  | .error _ => w

def changed (w : World) : Except QueryError Database → World
  | .ok database => { w with database }
  | .error _ => w

def isDefined (w : World) (index : String) : Bool := w.database.catalog.contains index

/-- The starts of indexes after the database became another one: indexes that are new start where they were
created, and those that had an older layout start anew. -/
def startsAt (w : World) (start : Int) (names : List String) : String → Int :=
  fun name => if name ∈ names then start else w.starts name

def ensure (w : World) (spec : IndexSpec) (start : Int) : World :=
  if spec.validate.toBool ∧ spec.settings.Ascending ∧ 0 ≤ start ∧ start ≤ w.store.sequence then
    match w.database.ensure spec start with
    | .ok database =>
      { w with database, starts := if w.isDefined spec.name then w.starts else w.startsAt start [spec.name] }
    | .error _ => w
  else w

def outdated (w : World) : List String :=
  match w.database.definitions with
  | .ok definitions => (definitions.filter (·.schemaVersion < currentLayout)).map (·.name)
  | .error _ => []

def reopen (w : World) (settings : ConnectionSettings) (file : FileState) (key? : Option EncryptionKey) : World :=
  match Manager.openDatabase settings file key? w.database with
  | .ok database => { w with database, starts := w.startsAt 0 w.outdated }
  | .error _ => w

def setUpdater (w : World) (n : Nat) (u : Updater) : World :=
  { w with updaters := fun m => if m = n then some u else w.updaters m }

def advance (w : World) (n : Nat) : World :=
  match w.updaters n with
  | some u => { w.setUpdater n (u.step w.store w.database).1 with database := (u.step w.store w.database).2 }
  | none => w

def step (w : World) : Event → World
  | .create docId body => w.wrote (w.store.create docId body)
  | .update docId revId body => w.wrote (w.store.update docId revId body)
  | .delete docId revId => w.wrote (w.store.delete docId revId)
  | .purge docId => { w with store := (w.store.purge docId).2 }
  | .ensure spec tokenizer start => w.ensure (spec.withDefaultTokenizer tokenizer) start
  | .deleteIndex name => w.changed (w.database.deleteIndex name)
  | .setLayout index version => w.changed (w.database.overwriteCatalog index .schemaVersion (.int version))
  | .reopen settings file key? => w.reopen settings file key?
  | .startUpdate n index batchSize patience =>
    w.setUpdater n { index, batchSize, patience, phase := .reading w.store.sequence }
  | .advance n => w.advance n
  | .fail n =>
    match w.updaters n with
    | some u => w.setUpdater n { u with phase := .failed }
    | none => w

def run (w : World) (events : List Event) : World := events.foldl step w

end World

end DocIndex
