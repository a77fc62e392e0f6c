import DocIndex.Storage.Error
import DocIndex.Text.Case

/-! # Migrations

Each component that owns tables brings them to their layout by numbered migrations. A migration takes effect with all
that its script does or not at all, and is recorded under its component when it has taken effect, so a later run goes on
after the highest number recorded.

What a script does is up to the engine that runs it. Scripts leave the record alone, and the transaction they run in.
-/

namespace DocIndex

/-- A change of the tables in the database. -/
inductive SchemaChange where
  | createTable (name : String)
  | createTableIfAbsent (name : String)
  | malformed
  deriving DecidableEq, Repr

structure Migration (κ : Type := List SchemaChange) where
  version : Int
  description : String
  changes : κ

/-- What scripts have made of a database, with the record of the migrations that took effect. -/
structure Layout (σ : Type) where
  contents : σ
  /-- Components with the numbers of their migrations, in the order they took effect. The first run makes the record. -/
  ledger? : Option (List (String × Int)) := none
  deriving DecidableEq, Repr

namespace Layout

variable {κ σ : Type} (execute : κ → σ → Except String σ)

def applied (s : Layout σ) : List (String × Int) := s.ledger?.getD []

def recorded (s : Layout σ) (component : String) : List Int := (s.applied.filter (·.1 == component)).map (·.2)

def highest (versions : List Int) : Int := versions.max?.getD 0

def version (s : Layout σ) (component : String) : Int := highest (s.recorded component)

def applyOne (s : Layout σ) (component : String) (m : Migration κ) : Except StorageError (Layout σ) := do
  let contents ← (execute m.changes s.contents).mapError (.migration component m.version m.description)
  if s.applied.contains (component, m.version) then
    .error (.statement "UNIQUE constraint failed: migrations")
  else .ok { contents, ledger? := some (s.applied ++ [(component, m.version)]) }

/-- Run migrations in turn up to the first that fails; those before it stay. -/
def applyEach (component : String) : List (Migration κ) → Layout σ → Option StorageError × Layout σ
  | [], s => (none, s)
  | m :: rest, s =>
    match s.applyOne execute component m with
    | .ok next => applyEach component rest next
    | .error e => (some e, s)

def target (migrations : List (Migration κ)) : Int := highest (migrations.map (·.version))

def migrate (component : String) (migrations : List (Migration κ)) (s : Layout σ) : Option StorageError × Layout σ :=
  let s := { s with ledger? := some s.applied }
  let current := s.version component
  if target migrations ≤ current then (none, s)
  else applyEach execute component (migrations.filter (current < ·.version)) s

structure Call (κ : Type) where
  component : String
  migrations : List (Migration κ)

def Call.versions (c : Call κ) : List Int := c.migrations.map (·.version)

def call (s : Layout σ) (c : Call κ) : Option StorageError × Layout σ := migrate execute c.component c.migrations s

def after (s : Layout σ) (calls : List (Call κ)) : Layout σ := calls.foldl (fun s c => (s.call execute c).2) s

end Layout

abbrev Schema := Layout (List String)

namespace Schema

instance : EmptyCollection Schema := ⟨{ contents := [] }⟩

/-- The table that records migrations. -/
def ledgerTable : String := "_sofa_schema_migrations"

def tables (s : Schema) : List String := (if s.ledger?.isSome then [ledgerTable] else []) ++ s.contents

def hasTable (s : Schema) (name : String) : Bool := s.tables.any (sameName · name)

/-- Names that the database keeps for itself. -/
def isReserved (name : String) : Bool := sameName (String.ofList (name.toList.take 7)) "sqlite_"

/-- Change the tables that stand beside the record of migrations. A statement ends at a null character, so a name that
holds one is never complete. -/
def change (made : List String) : SchemaChange → Except String (List String)
  | .createTable name =>
    if name.toList.contains '\x00' then .error "unrecognized token"
    else if isReserved name then .error ("object name reserved for internal use: " ++ name)
    else if (ledgerTable :: made).any (sameName · name) then .error ("table \"" ++ name ++ "\" already exists")
    else .ok (made ++ [name])
  | .createTableIfAbsent name => .ok (if (ledgerTable :: made).any (sameName · name) then made else made ++ [name])
  | .malformed => .error "syntax error"

def runScript (script : List SchemaChange) (made : List String) : Except String (List String) :=
  script.foldlM change made

def migrate (component : String) (migrations : List Migration) (s : Schema) : Option StorageError × Schema :=
  Layout.migrate runScript component migrations s

end Schema

end DocIndex
