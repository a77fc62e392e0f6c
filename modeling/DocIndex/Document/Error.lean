/-! # Errors of a document store -/

namespace DocIndex

inductive StoreError where
  | notFound (docId : String)
  /-- The write named `expected` as the current revision, which is `actual`. -/
  | conflict (docId expected actual : String)
  | invalidDocument (reason : String)
  | backend (reason : String)
  | serialization (reason : String)
  deriving DecidableEq, Repr

namespace StoreError

def emptyId : StoreError := .invalidDocument "document id is empty"

def reservedField (key : String) : StoreError :=
  .invalidDocument ("field names starting with '_' are reserved: " ++ key)

def message : StoreError → String
  | .notFound id => "Document not found: " ++ id
  | .conflict id expected actual =>
    "Revision conflict on document " ++ id ++ ": expected " ++ expected ++ ", found " ++ actual
  | .invalidDocument reason => "Invalid document: " ++ reason
  | .backend reason => "Storage backend error: " ++ reason
  | .serialization reason => "Serialization error: " ++ reason

/-- Only a failure of the backend may go away by itself. -/
def retryable : StoreError → Bool
  | .backend _ => true
  | _ => false

end StoreError

end DocIndex
