import DocIndex.Error
import DocIndex.FullText.Search
import DocIndex.Index.Rows
import DocIndex.Sql.Affinity

/-! # Index tables

A value index has an ordinary table, a text index a full-text table, which keeps its parts in tables of
their own. Others may drop one of these. The parts that are left still serve what needs no more than them;
but a connection that is new cannot open a full-text table without its data or its configuration.
-/

namespace DocIndex

open FullText

inductive TableForm where
  | ordinary
  | fullText (form : FullTextForm)
  deriving DecidableEq, Repr

namespace TableForm

def parts : TableForm → List Part
  | .ordinary => []
  | .fullText f => f.parts

def store : TableForm → TextStore
  | .ordinary => .own
  | .fullText f => f.store

end TableForm

/-- The table of an index. Its first columns are the identifiers of the document. -/
structure Table where
  name : String
  form : TableForm
  columns : List String
  rows : List Row := []
  /-- Names of the lookup structures over the table, which go with it. -/
  lookups : List String := []
  /-- Parts that others have dropped. -/
  lost : List Part := []
  /-- Whether any word was ever entered. -/
  worded : Bool := false
  /-- Whether the connection has the table open. -/
  opened : Bool := true
  deriving DecidableEq, Repr

namespace Table

def partName (t : Table) (p : Part) : String := t.name ++ p.suffix

def allNames (t : Table) : List String := t.name :: t.form.parts.map t.partName

def parts (t : Table) : List Part := t.form.parts.filter (!t.lost.contains ·)

def names (t : Table) : List String := t.name :: t.parts.map t.partName

/-- All names that the table takes from others. -/
def takenNames (t : Table) : List String := t.names ++ t.lookups

def losePart (t : Table) (name : String) : Table :=
  { t with lost := t.lost ++ t.parts.filter fun p => sameName (t.partName p) name }

def reconnected (t : Table) : Table :=
  { t with opened := !t.lost.contains .data && !t.lost.contains .config }

def checkOpen (t : Table) : Except SqlFault Unit :=
  if t.opened then .ok ()
  else if t.lost.contains .data then .error (.corrupt t.name)
  else .error (.noTable (t.partName .config))

def allColumns (t : Table) : List String := idColumn :: revColumn :: t.columns

def cell (t : Table) (r : Row) (column : String) : SqlValue :=
  if column = idColumn then .text r.docId
  else if column = revColumn then .text r.revId
  else ((t.columns.zip r.cells).find? (·.1 == column)).elim .null (·.2)

def cells (r : Row) : List SqlValue := .text r.docId :: .text r.revId :: r.cells

def keptCells (store : TextStore) (r : Row) : List SqlValue :=
  match store with
  | .nowhere true _ => .text r.docId :: .text r.revId :: r.cells.map fun _ => .null
  | .nowhere false _ => .null :: .null :: r.cells.map fun _ => .null
  | _ => cells r

/-- The rows that tell which document they belong to. -/
def known (t : Table) : List Row :=
  match t.form.store with
  | .nowhere false _ => []
  | _ => t.rows

/-- All rows can be read only where they are kept. -/
def checkReadable (t : Table) : Except SqlFault Unit :=
  match t.form with
  | .ordinary => .ok ()
  | .fullText f =>
    match f.readPart? with
    | none => .error (.unsupported t.name)
    | some p => if t.lost.contains p then .error (.noTable (t.partName p)) else .ok ()

def rows? (t : Table) : Except SqlFault (List Row) := do
  t.checkReadable
  .ok t.known

def contents? (t : Table) : Except SqlFault (List (List SqlValue)) := do
  t.checkReadable
  .ok (t.rows.map (keptCells t.form.store))

/-- The words of a row by column. Identifiers are not searched. -/
def wordsOf (tokenizer : Tokenizer) (r : Row) : List (List String) :=
  [] :: [] :: r.cells.map fun v => tokenizer.tokens (v.text?.getD "")

def haveWords (t : Table) (rows : List Row) : Bool :=
  match t.form with
  | .ordinary => false
  | .fullText f => rows.any fun r => (wordsOf f.tokenizer r).any (!·.isEmpty)

/-- A change of some rows needs all parts but the configuration, and the index of words only if there are
words. -/
def checkWritable (t : Table) (rows : List Row) : Except SqlFault Unit :=
  let needed := t.form.parts.filter fun p => p != .config && (p != .idx || t.haveWords rows)
  if needed.any t.lost.contains then .error (.corrupt t.name) else .ok ()

def checkErasable (t : Table) : Except SqlFault Unit :=
  match t.form.store with
  | .nowhere _ false => .error (.unsupported t.name)
  | _ => .ok ()

def erase? (t : Table) (docId : String) : Except SqlFault Table := do
  let found := (← t.rows?).filter (·.docId == docId)
  if found.isEmpty then .ok t
  else do
    t.checkErasable
    t.checkWritable found
    .ok { t with rows := t.rows.filter (·.docId != docId) }

def append? (t : Table) (rows : List Row) : Except SqlFault Table := do
  t.checkWritable rows
  .ok { t with rows := t.rows ++ rows, worded := t.worded || t.haveWords rows }

/-- A search for words needs the index of words and the data, if words were ever entered. -/
def checkSearchable (t : Table) (e : SearchExpression) : Except SqlFault Unit :=
  if !e.hasGroup || !t.worded then .ok ()
  else if t.lost.contains .idx then .error (.noTable (t.partName .idx))
  else if t.lost.contains .data then .error (.corrupt t.name)
  else .ok ()

/-- The rows that match a search text. An ordinary table cannot be searched, which shows at its first row. -/
def matching? (t : Table) (search : String) : Except SqlFault (List Row) :=
  match t.form with
  | .ordinary =>
    if t.rows.isEmpty then .ok [] else .error (.search "unable to use a search in the requested context")
  | .fullText f =>
    match SearchExpression.read? f t.allColumns search with
    | none => .error (.search "malformed search text")
    | some e => do
      t.checkSearchable e
      .ok (t.known.filter fun r => e.holds (wordsOf f.tokenizer r))

end Table

end DocIndex
