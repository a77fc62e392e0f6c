import DocIndex.Document.Revision
import DocIndex.Index.Definition

/-! # Rows of a document

A live document contributes rows to an index. In a value index it is one row, or one for each scalar
of the one array among the indexed fields; a document with arrays in two indexed fields contributes
none. A field without a type takes the type of the first scalar it meets, and a scalar of another type
leaves a null. In a text index it is always one row: strings, and the strings of arrays.
-/

namespace DocIndex

/-- A row of an index table: the document, the revision it was read from, and a cell for each field
column. -/
structure Row where
  docId : String
  revId : String
  cells : List SqlValue
  deriving DecidableEq, Repr

/-- Rows of one document and the fields of the index with the types known afterwards. -/
structure DocumentRows where
  rows : List Row
  fields : List IndexField
  /-- Types seen for the first time, in field order. -/
  observed : List (String × FieldType) := []

namespace Index

def scalars : Option Json → List Json
  | some (.array items) => items.filter fun v => (FieldType.of? v).isSome
  | some v => if (FieldType.of? v).isSome then [v] else []
  | none => []

def isArray : Option Json → Bool
  | some (.array _) => true
  | _ => false

/-- The type of a field after some scalars: its own, or that of the first scalar. -/
def fixType (type? : Option FieldType) (values : List Json) : Option FieldType :=
  match type? with
  | some t => some t
  | none => values.head?.bind FieldType.of?

def cellOf (type? : Option FieldType) (v : Json) : SqlValue :=
  if type? = FieldType.of? v then (SqlValue.ofJson? v).getD .null else .null

/-- The cells that the scalars of one field take; at least one, which is null if there are no scalars. -/
def column (type? : Option FieldType) (values : List Json) : List SqlValue :=
  if values.isEmpty then [.null] else values.map (cellOf (fixType type? values))

/-- One row of cells for each choice of a cell from every column, the last column varying fastest. -/
def combinations : List (List SqlValue) → List (List SqlValue)
  | [] => [[]]
  | c :: rest => c.flatMap fun v => (combinations rest).map (v :: ·)

/-- The field with its type fixed by a revision. Identifiers are left alone. -/
def observe (r : Revision) (f : IndexField) : IndexField :=
  if f.isBuiltin then f else { f with type? := fixType f.type? (scalars (r.field? f.path)) }

def newTypes (r : Revision) : List IndexField → List (String × FieldType)
  | [] => []
  | f :: rest =>
    match f.type?, (observe r f).type? with
    | none, some t => (f.path, t) :: newTypes r rest
    | _, _ => newTypes r rest

def valueRows (fields : List IndexField) (r : Revision) : List Row :=
  let own := fields.filter (!·.isBuiltin)
  if 1 < own.countP (fun f => isArray (r.field? f.path)) then []
  else
    (combinations (own.map fun f => column f.type? (scalars (r.field? f.path)))).map fun cells =>
      { docId := r.docId, revId := r.revId, cells }

def words : Option Json → SqlValue
  | some (.string s) => .text s
  | some (.array items) =>
    let parts := items.filterMap Json.asString?
    if parts.isEmpty then .null else .text (" ".intercalate parts)
  | _ => .null

def textRow (fields : List IndexField) (r : Revision) : Row :=
  { docId := r.docId, revId := r.revId,
    cells := (fields.filter (!·.isBuiltin)).map fun f => words (r.field? f.path) }

end Index

namespace Definition

def documentRows (d : Definition) (r : Revision) : DocumentRows :=
  match d.kind with
  | .value =>
    { rows := Index.valueRows d.fields r, fields := d.fields.map (Index.observe r),
      observed := Index.newTypes r d.fields }
  | .text => { rows := [Index.textRow d.fields r], fields := d.fields }

end Definition

end DocIndex
