import DocIndex.Config.Settings
import DocIndex.Maintenance.ResultSet
import DocIndex.Maintenance.Update
import DocIndex.Query.Answer
import DocIndex.Query.Compile
import DocIndex.Storage.Connection

/-! # The index manager

A manager declares indexes, keeps them up to date and answers queries from them. A query is compiled
before any index is updated, so a query that is refused changes nothing; after the update it is planned
anew, because the types of fields that the update has fixed decide what a value can match.
-/

namespace DocIndex

structure Manager (σ : Type) where
  host : Host σ
  settings : ManagerSettings := {}
  textSearch : Bool := true

namespace Manager

variable {σ : Type}

def ofStorage : StorageError → QueryError
  | .key reason => .encryptionKey reason
  | e => .sql (.storage e.message)

/-- Open the database of a manager: reach the file, then bring catalog and indexes to the current
layout. A database in memory keeps its connection. -/
def openDatabase (settings : ConnectionSettings) (file : FileState) (key? : Option EncryptionKey)
    (db : Database) : Except QueryError Database := do
  let connection ← (Connection.open? settings file key?).mapError ofStorage
  let found := if connection.isMemory then db else db.reconnected
  (← found.prepare.mapError ofStorage).rebuildOutdated

def listIndexes (m : Manager σ) : Action σ (List (String × List String)) := do
  let definitions ← m.host.look Database.definitions
  pure (definitions.map fun d => (d.name, d.paths))

def definition? (m : Manager σ) (index : String) : Action σ (Option Definition) :=
  m.host.look fun db => db.definition? index

def checkpoint? (m : Manager σ) (index : String) : Action σ (Option Int) :=
  m.host.look fun db => Database.lift (db.catalog.lastSequence? index)

def startSequence (m : Manager σ) : Action σ Int :=
  if m.settings.backfillNewIndexes then pure 0 else Host.ask m.host.currentSequence

def ensure (m : Manager σ) (spec : IndexSpec) : Action σ String := do
  let spec := spec.withDefaultTokenizer m.settings.defaultTokenizer
  liftM spec.validate
  if spec.kind = .text ∧ !m.textSearch then throw .textSearchUnavailable
  let start ← m.startSequence
  m.host.transact fun db => db.ensure spec start
  pure spec.name

def ensurePaths (m : Manager σ) (name : String) (paths : List String) : Action σ String :=
  m.ensure (IndexSpec.ofPaths name paths)

def deleteIndex (m : Manager σ) (name : String) : Action σ Unit :=
  m.host.transact fun db => db.deleteIndex name

def updateAll (m : Manager σ) : Action σ Unit := Update.updateAll m.host m.settings.updateBatchSize

def updateIndex (m : Manager σ) (index : String) : Action σ Int := do
  match ← Update.updateIndex m.host m.settings.updateBatchSize index with
  | some checkpoint => pure checkpoint
  | none => throw (.indexDoesNotExist index)

def checkSearches (db : Database) : List (Definition × String) → Except QueryError Unit
  | [] => .ok ()
  | (d, search) :: rest => do
    db.checkSearch d search
    checkSearches db rest

def plan (m : Manager σ) (selector : Selector) (sort : List SortKey) : Action σ Plan := do
  let definitions ← m.host.look Database.definitions
  liftM (Plan.make selector definitions sort)

def run (m : Manager σ) (q : Query) (p : Plan) : Action σ ResultSet := do
  let statement ← liftM (p.statement? q.skip q.limit?)
  let _ ← liftM (statement.fragment.mapError QueryError.malformedFragment)
  let rows ← m.host.look fun db => Database.lift (statement.run db)
  pure { rows, fields? := q.fields? }

def find (m : Manager σ) (q : Query) : Action σ ResultSet := do
  let selector ← liftM (Selector.ofJson? q.selector)
  liftM q.validate
  let first ← m.plan selector q.sort
  m.host.look fun db => checkSearches db first.searches
  if m.settings.updateBeforeFind then
    m.updateAll
    let second ← m.plan selector q.sort
    m.run q second
  else m.run q first

def findSelector (m : Manager σ) (selector : Json) : Action σ ResultSet := m.find { selector }

end Manager

end DocIndex
