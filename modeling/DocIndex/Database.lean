import DocIndex.Index.Catalog
import DocIndex.Index.Spec
import DocIndex.Index.Table
import DocIndex.Storage.Schema

/-! # The index database

The database holds the catalog and the tables of the indexes. Every operation either gives a new database
or an error, and then the old one stands, so each is a transaction.
-/

namespace DocIndex

structure Database where
  schema : Schema := {}
  catalog : Catalog := []
  tables : List Table := []

namespace Database

def catalogTable : String := "_sofa_query_metadata"

def component : String := "index-catalog"

def migrations : List Migration :=
  [{ version := 1, description := "index metadata", changes := [.createTableIfAbsent catalogTable] }]

def prepare (db : Database) : Except StorageError Database :=
  match db.schema.migrate component migrations with
  | (none, schema) => .ok { db with schema }
  | (some e, _) => .error e

def tableExists (db : Database) (name : String) : Bool :=
  db.schema.tables.contains name || db.tables.any (·.names.contains name)

def isTaken (db : Database) (name : String) : Bool :=
  db.schema.hasTable name || db.tables.any fun t => t.takenNames.any (sameName · name)

def table? (db : Database) (name : String) : Except SqlFault Table :=
  match db.tables.find? (·.name == name) with
  | some t => do
    t.checkOpen
    .ok t
  | none => .error (.noTable name)

def modifyTable (db : Database) (name : String) (change : Table → Except SqlFault Table) :
    Except SqlFault Database := do
  let changed ← change (← db.table? name)
  .ok { db with tables := db.tables.map fun t => if t.name = name then changed else t }

/-- The database as a new connection finds it. -/
def reconnected (db : Database) : Database := { db with tables := db.tables.map Table.reconnected }

/-- The most columns that an ordinary table has. -/
def maxColumns : Nat := 2000

/-- The tokenizer of a text index that names none. -/
def defaultTokenizer : String := "unicode61"

/-- The form of the full-text table of an index. The tokenizer is written between quotes into the statement
that makes the table, so it may end the quotes and go on with other arguments. -/
def fullTextForm? (d : Definition) (columns : List String) : Except QueryError FullTextForm := do
  let arguments := "tokenize = '" ++ (d.settings.get? tokenizeKey).getD defaultTokenizer ++ "')"
  let _ ← (Fragment.raw arguments).mapError QueryError.malformedFragment
  match (TableArgument.readAll? arguments).bind (FullTextForm.ofArguments? d.tableName columns) with
  | some form => .ok form
  | none => .error (.sql (.declaration d.tableName))

def emptyTable? (d : Definition) : Except QueryError Table := do
  let columns := d.fieldColumns.map (·.2)
  let allColumns := idColumn :: revColumn :: columns
  match d.kind with
  | .value =>
    if maxColumns < allColumns.length then .error (.sql .tooLarge)
    else .ok { name := d.tableName, form := .ordinary, columns, lookups := d.lookups }
  | .text => do .ok { name := d.tableName, form := .fullText (← fullTextForm? d allColumns), columns }

def createTable (db : Database) (d : Definition) : Except QueryError Database := do
  let t ← emptyTable? d
  match t.takenNames.find? db.isTaken with
  | some name => .error (.sql (.tableExists name))
  | none => .ok { db with tables := db.tables ++ [t] }

/-- Drop the table of this name, if there is one. With a full-text table go all tables that have the names of
its parts. A statement ends at a null character, so a name that holds one is never complete. -/
def dropTable (db : Database) (name : String) : Except SqlFault Database :=
  if name.toList.contains '\x00' then .error .incomplete
  else match db.tables.find? (sameName ·.name name) with
    | some t => do
      t.checkOpen
      .ok { db with tables := db.tables.filter fun other => !t.allNames.any (sameName other.name) }
    | none => .ok { db with tables := db.tables.map (·.losePart name) }

def definitions (db : Database) : Except QueryError (List Definition) := db.catalog.definitions

def definition? (db : Database) (name : String) : Except QueryError (Option Definition) :=
  db.catalog.definition? name

def lift {α : Type} : Except SqlFault α → Except QueryError α
  | .ok a => .ok a
  | .error e => .error (.sql e)

def dump (db : Database) (index : String) : Except QueryError (Option (List (List SqlValue))) := do
  match ← db.definition? index with
  | none => .ok none
  | some d => .ok (some (← lift (do (← db.table? d.tableName).contents?)))

def trySearch (db : Database) (d : Definition) (search : String) : Except SqlFault Unit := do
  let _ ← (← db.table? d.tableName).matching? search
  .ok ()

/-- Reject a search text that the table of an index cannot answer. A damaged table is no fault of the text. -/
def checkSearch (db : Database) (d : Definition) (search : String) : Except QueryError Unit :=
  match db.trySearch d search with
  | .ok _ => .ok ()
  | .error (.corrupt table) => .error (.sql (.corrupt table))
  | .error e => .error (.invalidQuery (.textSearch search e.message))

/-- The existing index, if any, that a request clashes with. -/
def conflict? (existing : List Definition) (s : IndexSpec) : Option IndexConflict :=
  match existing.find? (sameName ·.name s.name) with
  | some other => some (.differsByCase s.name other.name)
  | none =>
    match s.kind with
    | .value => none
    | .text => (existing.find? (·.kind == .text)).map fun d => .secondText d.name

def ensure (db : Database) (s : IndexSpec) (start : Int) : Except QueryError Database := do
  let existing ← db.definitions
  match existing.find? (·.name == s.name) with
  | some d => if d.matches s then .ok db else .error (.indexConflict (.differentDefinition s.name))
  | none =>
    match conflict? existing s with
    | some c => .error (.indexConflict c)
    | none =>
      let d : Definition :=
        { name := s.name, kind := s.kind, fields := s.fields, settings := s.settings, lastSequence := start }
      { db with catalog := db.catalog.insert d }.createTable d

def deleteIndex (db : Database) (name : String) : Except QueryError Database :=
  if !isIndexName name || !db.catalog.contains name then .error (.indexDoesNotExist name)
  else lift ({ db with catalog := db.catalog.erase name }.dropTable (tableNameOf name))

def rebuild (db : Database) (d : Definition) : Except QueryError Database := do
  let fresh ← (← lift (db.dropTable d.tableName)).createTable d
  .ok { fresh with catalog := fresh.catalog.resetForRebuild d.name }

def rebuildOutdated (db : Database) : Except QueryError Database := do
  let outdated := (← db.definitions).filter (·.schemaVersion < currentLayout)
  outdated.foldlM rebuild db

/-- Put a value into a column of the catalog, on all rows of one index. -/
def overwriteCatalog (db : Database) (index : String) (column : CatalogColumn) (value : SqlValue) :
    Except QueryError Database := do
  .ok { db with catalog := ← lift (db.catalog.overwrite? index column value) }

/-! ## Applying changes -/

def recordTypes (c : Catalog) (index : String) (types : List (String × FieldType)) : Catalog :=
  types.foldl (fun c t => c.setFieldType index t.1 t.2) c

def applyChange (db : Database) (d : Definition) (r : Revision) : Except SqlFault (Database × Definition) := do
  let cleared ← db.modifyTable d.tableName (·.erase? r.docId)
  if r.deleted then .ok (cleared, d)
  else
    let found := d.documentRows r
    let filled ← cleared.modifyTable d.tableName (·.append? found.rows)
    .ok ({ filled with catalog := recordTypes filled.catalog d.name found.observed },
      { d with fields := found.fields })

def applyChanges (d : Definition) : List Revision → Database → Except SqlFault Database
  | [], db => .ok db
  | r :: rest, db => do
    let (next, d) ← db.applyChange d r
    applyChanges d rest next

inductive BatchOutcome where
  | applied (db : Database)
  /-- The index is not defined any more. -/
  | vanished
  /-- The checkpoint of the index is another one than the batch starts from. -/
  | moved (checkpoint : Int)

/-- Apply changes to an index and move its checkpoint, in one transaction, if the checkpoint still is
where the changes start. -/
def applyBatch (db : Database) (index : String) (since : Int) (changes : List Revision) (checkpoint : Int) :
    Except QueryError BatchOutcome := do
  match ← db.definition? index with
  | none => .ok .vanished
  | some d =>
    if d.lastSequence ≠ since then .ok (.moved d.lastSequence)
    else
      let next ← lift (applyChanges d changes db)
      .ok (.applied { next with catalog := next.catalog.setLastSequence index checkpoint })

end Database

end DocIndex
