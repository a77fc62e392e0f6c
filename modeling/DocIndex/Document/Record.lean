import DocIndex.Document.Error
import DocIndex.Document.Revision
import DocIndex.Json.Printer
import DocIndex.Sql.Value

/-! # Revisions as JSON records

A record is an object with a member for each part of a revision, or an array of these parts in order.
The members of an object are read in the order of their keys, so the first one of another type is the
one that is named.
-/

namespace DocIndex

namespace Revision

def toRecord (r : Revision) : Json :=
  .object
    [("body", .object r.body), ("deleted", .bool r.deleted), ("doc_id", .string r.docId),
      ("rev_id", .string r.revId), ("sequence", .int r.sequence)]

def shown : Json → String
  | .null => "null"
  | .bool b => "boolean `" ++ (Json.bool b).text ++ "`"
  | .number (.int i) => "integer `" ++ toString i ++ "`"
  | .number (.float x) => "floating point `" ++ (Json.Number.float x).text ++ "`"
  | .string s => "string " ++ Json.outlineString s
  | .array _ => "sequence"
  | .object _ => "map"

def wrongType {α : Type} (v : Json) (expected : String) : Except StoreError α :=
  .error (.serialization ("invalid type: " ++ shown v ++ ", expected " ++ expected))

def readText : Json → Except StoreError String
  | .string s => .ok s
  | v => wrongType v "a string"

def readFlag : Json → Except StoreError Bool
  | .bool b => .ok b
  | v => wrongType v "a boolean"

def readBody : Json → Except StoreError Object
  | .object o => .ok o
  | v => wrongType v "a map"

def readSequence : Json → Except StoreError Int
  | .number (.int i) =>
    if SqlValue.fitsInt i then .ok i
    else .error (.serialization ("invalid value: " ++ shown (.int i) ++ ", expected i64"))
  | v => wrongType v "i64"

def required {α : Type} (key : String) : Option α → Except StoreError α
  | some a => .ok a
  | none => .error (.serialization ("missing field `" ++ key ++ "`"))

/-- Read the members of a record. Identifiers and sequence have to be there; other members are ignored. -/
def ofMembers? (o : Object) : Except StoreError Revision := do
  let body ← (Object.get? o "body").mapM readBody
  let deleted ← (Object.get? o "deleted").mapM readFlag
  let docId ← (Object.get? o "doc_id").mapM readText
  let revId ← (Object.get? o "rev_id").mapM readText
  let sequence ← (Object.get? o "sequence").mapM readSequence
  .ok { docId := ← required "doc_id" docId, revId := ← required "rev_id" revId
        sequence := ← required "sequence" sequence, deleted := deleted.getD false, body := body.getD [] }

def wrongLength {α : Type} (length : Nat) (expected : String) : Except StoreError α :=
  .error (.serialization ("invalid length " ++ toString length ++ ", expected " ++ expected))

/-- Read the parts of a record: identifiers and sequence, and after them, if given, tombstone and body. -/
def ofParts? (parts : List Json) : Except StoreError Revision := do
  let part (i : Nat) : Except StoreError Json :=
    match parts[i]? with
    | some v => .ok v
    | none => wrongLength i "struct DocumentRevision with 5 elements"
  let docId ← readText (← part 0)
  let revId ← readText (← part 1)
  let sequence ← readSequence (← part 2)
  let deleted ← (parts[3]?).mapM readFlag
  let body ← (parts[4]?).mapM readBody
  if 5 < parts.length then wrongLength parts.length "fewer elements in array"
  else .ok { docId, revId, sequence, deleted := deleted.getD false, body := body.getD [] }

def ofRecord? : Json → Except StoreError Revision
  | .object o => ofMembers? o
  | .array parts => ofParts? parts
  | v => wrongType v "struct DocumentRevision"

end Revision

end DocIndex
