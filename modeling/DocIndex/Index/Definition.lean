import DocIndex.Error

/-! # Index definitions

An index has a name, a kind, an ordered list of fields and settings. A value index keeps a typed cell
for each field, a text index the words of its fields. The identifiers `_id` and `_rev` of a document
are columns of every index table; a field other than these is kept in the column named after its
position in the field list, so paths that differ only by case have columns of their own.
-/

namespace DocIndex

inductive IndexKind where
  | value
  | text
  deriving DecidableEq, Repr

namespace IndexKind

def name : IndexKind → String
  | .value => "json"
  | .text => "text"

def ofName? (s : String) : Except QueryError IndexKind :=
  if s = "json" ∨ s = "value" then .ok .value
  else if s = "text" then .ok .text
  else .error (.invalidIndexSettings (.unknownKind s))

end IndexKind

/-- The type of the values that a field's column admits. -/
inductive FieldType where
  | string
  | number
  | boolean
  deriving DecidableEq, Repr

namespace FieldType

def name : FieldType → String
  | .string => "string"
  | .number => "number"
  | .boolean => "boolean"

def ofName? (s : String) : Except QueryError FieldType :=
  if s = "string" then .ok .string
  else if s = "number" then .ok .number
  else if s = "boolean" then .ok .boolean
  else .error (.invalidIndexSettings (.unknownType s))

/-- The type of a value that can be indexed; null, arrays and objects have none. -/
def of? : Json → Option FieldType
  | .string _ => some .string
  | .number _ => some .number
  | .bool _ => some .boolean
  | _ => none

end FieldType

def idColumn : String := "_id"

def revColumn : String := "_rev"

/-- Whether the path names one of a document's identifiers. -/
def isBuiltin (path : String) : Bool := path == idColumn || path == revColumn

/-- A field of an index. The type is declared, or fixed by the first value that is indexed. -/
structure IndexField where
  path : String
  type? : Option FieldType := none
  deriving DecidableEq, Repr

namespace IndexField

def isBuiltin (f : IndexField) : Bool := DocIndex.isBuiltin f.path

end IndexField

/-- Settings of an index, sorted by key. -/
abbrev Settings := List (String × String)

namespace Settings

def get? (s : Settings) (key : String) : Option String := (s.find? (·.1 == key)).map (·.2)

def insert (key value : String) : Settings → Settings
  | [] => [(key, value)]
  | (k, v) :: rest =>
    if key < k then (key, value) :: (k, v) :: rest
    else if key = k then (key, value) :: rest
    else (k, v) :: insert key value rest

/-- The keys ascend, so no key is given twice. -/
def Ascending (s : Settings) : Prop := s.Pairwise (·.1 < ·.1)

instance (s : Settings) : Decidable s.Ascending := inferInstanceAs (Decidable (s.Pairwise (·.1 < ·.1)))

end Settings

/-- The setting that names the tokenizer of a text index. -/
def tokenizeKey : String := "tokenize"

/-- The layout of index tables that this library writes. -/
def currentLayout : Int := 2

/-- A declared index with its checkpoint: the change sequence it has caught up to. -/
structure Definition where
  name : String
  kind : IndexKind
  fields : List IndexField
  settings : Settings := []
  schemaVersion : Int := currentLayout
  lastSequence : Int := 0
  deriving DecidableEq, Repr

def tableNameOf (index : String) : String := "_sofa_query_index_" ++ index

/-- Name of a lookup structure over the table of an index; no index table has such a name. -/
def lookupNameOf (index purpose : String) : String := "_sofa_query_key_" ++ purpose ++ "_" ++ index

namespace Definition

def tableName (d : Definition) : String := tableNameOf d.name

def paths (d : Definition) : List String := d.fields.map (·.path)

def covers (d : Definition) (path : String) : Bool := isBuiltin path || d.fields.any (·.path == path)

def field? (d : Definition) (path : String) : Option IndexField := d.fields.find? (·.path == path)

/-- The fields with columns of their own, each with its column. -/
def columnsFrom (position : Nat) : List IndexField → List (IndexField × String)
  | [] => []
  | f :: rest =>
    if f.isBuiltin then columnsFrom (position + 1) rest
    else (f, "f" ++ toString position) :: columnsFrom (position + 1) rest

def fieldColumns (d : Definition) : List (IndexField × String) := columnsFrom 0 d.fields

def columnFields (d : Definition) : List IndexField := d.fields.filter (!·.isBuiltin)

/-- The names of the lookup structures over the table: over its field columns, if there are any, and over the
identifiers of documents. A full-text table has none. -/
def lookups (d : Definition) : List String :=
  match d.kind with
  | .value => (if d.fieldColumns.isEmpty then [] else [lookupNameOf d.name "fields"]) ++ [lookupNameOf d.name "id"]
  | .text => []

def columnFor? (d : Definition) (path : String) : Option String :=
  if isBuiltin path then some path
  else (d.fieldColumns.find? (·.1.path == path)).map (·.2)

/-- The type of the values in the column of a path; identifiers are strings. -/
def typeOf? (d : Definition) (path : String) : Option FieldType :=
  if isBuiltin path then some .string else (d.field? path).bind (·.type?)

end Definition

end DocIndex
