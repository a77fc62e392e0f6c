import DocIndex.Index.Rows
import DocIndex.Json.Printer
import DocIndex.Json.Reader
import DocIndex.Sql.Affinity

/-! # The catalog

The catalog keeps one row for each field of each index. What belongs to the index as a whole (kind,
settings, layout and checkpoint) stands on every row of it and is always written to all of them.
`Catalog.definitions` reads the rows back; settings are kept as JSON text. Others may write to the catalog
too, so a row need not make sense.
-/

namespace DocIndex

namespace Settings

def text (s : Settings) : String := (Json.object (s.map fun (k, v) => (k, .string v))).text

/-- The settings with these members. Each has to be a string, also one that a later one replaces. -/
def ofMembers? (members : List (String × Json)) : Option Settings :=
  members.foldlM (fun s m => m.2.asString?.map fun v => insert m.1 v s) []

def read? (text : String) : Option Settings := (Json.readObject? text).bind ofMembers?

end Settings

structure CatalogRow where
  index : String
  kind : String
  settings : String
  path : String
  type? : Option String
  position : Nat
  /-- None if the cell holds no integer. -/
  schemaVersion? : Option Int
  /-- None if the cell holds no integer. -/
  lastSequence? : Option Int
  deriving DecidableEq, Repr

/-- The columns of the catalog that others may write to. -/
inductive CatalogColumn where
  | kind
  | settings
  | type
  | schemaVersion
  | lastSequence
  deriving DecidableEq, Repr

abbrev Catalog := List CatalogRow

namespace CatalogRow

/-- Rows are read by index name, and within an index by position. -/
def isBefore (a b : CatalogRow) : Bool := a.index < b.index || a.index == b.index && a.position ≤ b.position

def field? (r : CatalogRow) : Except QueryError IndexField :=
  match r.type? with
  | none => .ok { path := r.path }
  | some t => (FieldType.ofName? t).map fun type => { path := r.path, type? := some type }

def definition? (r : CatalogRow) (f : IndexField) : Except QueryError Definition :=
  match r.schemaVersion?, r.lastSequence? with
  | some schemaVersion, some lastSequence =>
    match Settings.read? r.settings with
    | none => .error (.sql (.corruptSettings r.index))
    | some settings =>
      (IndexKind.ofName? r.kind).map fun kind =>
        { name := r.index, kind, fields := [f], settings, schemaVersion, lastSequence }
  | _, _ => .error (.sql (.notInteger r.index))

/-- Put a value into a column, as the type of the column has it. Only the type of a field can be null. -/
def set? (r : CatalogRow) (column : CatalogColumn) (value : SqlValue) : Except SqlFault CatalogRow :=
  match column, value.text? with
  | .type, text? => .ok { r with type? := text? }
  | _, none => .error .missingValue
  | .kind, some kind => .ok { r with kind }
  | .settings, some settings => .ok { r with settings }
  | .schemaVersion, some _ => .ok { r with schemaVersion? := value.integer? }
  | .lastSequence, some _ => .ok { r with lastSequence? := value.integer? }

def isTyped (r : CatalogRow) : Bool := r.schemaVersion?.isSome && r.lastSequence?.isSome

end CatalogRow

namespace Catalog

def readRow (latest : List Definition) (r : CatalogRow) : Except QueryError (List Definition) := do
  let f ← r.field?
  match latest with
  | d :: rest =>
    if d.name = r.index then .ok ({ d with fields := d.fields ++ [f] } :: rest)
    else .ok ((← r.definition? f) :: d :: rest)
  | [] => .ok [← r.definition? f]

/-- Put a row before the first that it may precede. -/
def place (r : CatalogRow) : Catalog → Catalog
  | [] => [r]
  | s :: rest => if r.isBefore s then r :: s :: rest else s :: place r rest

/-- The rows in the order in which they are read. -/
def arranged : Catalog → Catalog
  | [] => []
  | r :: rest => place r (arranged rest)

def definitions (c : Catalog) : Except QueryError (List Definition) :=
  match c.find? (!·.isTyped) with
  | some r => .error (.sql (.notInteger r.index))
  | none => do
    let latest ← c.arranged.foldlM readRow []
    .ok latest.reverse

def definition? (c : Catalog) (name : String) : Except QueryError (Option Definition) := do
  .ok ((← c.definitions).find? (·.name == name))

def lastSequence? (c : Catalog) (name : String) : Except SqlFault (Option Int) :=
  match c.find? (·.index == name) with
  | none => .ok none
  | some r =>
    match r.lastSequence? with
    | some sequence => .ok (some sequence)
    | none => .error (.notInteger name)

def rowsFrom (d : Definition) (position : Nat) : List IndexField → List CatalogRow
  | [] => []
  | f :: rest =>
    { index := d.name, kind := d.kind.name, settings := d.settings.text, path := f.path,
      type? := f.type?.map FieldType.name, position, schemaVersion? := some d.schemaVersion,
      lastSequence? := some d.lastSequence } :: rowsFrom d (position + 1) rest

def insert (c : Catalog) (d : Definition) : Catalog := c ++ rowsFrom d 0 d.fields

def contains (c : Catalog) (name : String) : Bool := c.any (·.index == name)

def erase (c : Catalog) (name : String) : Catalog := c.filter (·.index != name)

def modify (c : Catalog) (name : String) (change : CatalogRow → CatalogRow) : Catalog :=
  c.map fun r => if r.index = name then change r else r

def setLastSequence (c : Catalog) (name : String) (sequence : Int) : Catalog :=
  c.modify name fun r => { r with lastSequence? := some sequence }

def setFieldType (c : Catalog) (name path : String) (type : FieldType) : Catalog :=
  c.modify name fun r =>
    if r.path = path ∧ r.type?.isNone then { r with type? := some type.name } else r

/-- Mark an index to be filled anew in a layout. -/
def resetTo (c : Catalog) (name : String) (version : Int) : Catalog :=
  c.modify name fun r => { r with lastSequence? := some 0, schemaVersion? := some version }

def resetForRebuild (c : Catalog) (name : String) : Catalog := c.resetTo name currentLayout

def overwrite? (c : Catalog) (name : String) (column : CatalogColumn) (value : SqlValue) : Except SqlFault Catalog :=
  c.mapM fun r => if r.index = name then r.set? column value else .ok r

end Catalog

/-- A change of the catalog. -/
inductive CatalogChange where
  | insert (d : Definition)
  | erase (name : String)
  | setLastSequence (name : String) (sequence : Int)
  | setFieldType (name path : String) (type : FieldType)
  | reset (name : String) (version : Int)

namespace CatalogChange

def index : CatalogChange → String
  | .insert d => d.name
  | .erase name | .setLastSequence name _ | .setFieldType name _ _ | .reset name _ => name

def apply (c : Catalog) : CatalogChange → Catalog
  | .insert d => c.insert d
  | .erase name => c.erase name
  | .setLastSequence name sequence => c.setLastSequence name sequence
  | .setFieldType name path type => c.setFieldType name path type
  | .reset name version => c.resetTo name version

end CatalogChange

def Catalog.after (changes : List CatalogChange) : Catalog := changes.foldl CatalogChange.apply []

end DocIndex
