import DocIndex.Sql.Value
import DocIndex.Storage.Key
import DocIndex.Storage.Settings

/-! # Opening a database

The library cannot decrypt, so a key is refused wherever one is given. A file that holds no database
cannot be opened; an empty one is a new database.
-/

namespace DocIndex

/-- What is found at the path of a database. -/
inductive FileState where
  /-- A directory of the path is a file. -/
  | unreachable
  | absent
  /-- A file of this many bytes that were not written by the database. -/
  | foreign (bytes : Nat)
  | database
  deriving DecidableEq, Repr

namespace FileState

/-- Files of at most one byte count as empty. -/
def isReadable : FileState → Bool
  | .foreign bytes => bytes ≤ 1
  | _ => true

end FileState

/-- An open database as its own settings describe it. -/
structure Connection where
  isMemory : Bool
  journalMode : SqlValue
  foreignKeys : SqlValue
  busyTimeout : SqlValue
  cacheSize : SqlValue
  tempStore : SqlValue
  textSearch : Bool := true
  deriving DecidableEq, Repr

namespace Connection

def noCipher : StorageError := .key "SQLCipher support is not available in this SQLite build"

def notReadable : StorageError :=
  .key "Database could not be opened with the supplied key: SQLite error: file is not a database"

/-- A number as the database reads it from a setting: 0 if it does not fit 32 bits. -/
def small (i : Int) : Int := if -(Nat.pow 2 31) ≤ i ∧ i < Nat.pow 2 31 then i else 0

/-- The file is reached first, then the key is tried, then the file is read. -/
def access (file : FileState) (key? : Option EncryptionKey) : Except StorageError Unit :=
  if file = .unreachable then .error (.connection "Failed to create directory: not a directory")
  else if key?.isSome then .error noCipher
  else if !file.isReadable then .error notReadable
  else .ok ()

def open? (settings : ConnectionSettings) (file : FileState) (key? : Option EncryptionKey) :
    Except StorageError Connection := do
  access (if settings.isMemory then .absent else file) key?
  .ok
    { isMemory := settings.isMemory
      journalMode := .text (if settings.isMemory then "memory" else if settings.writeAhead then "wal" else "delete")
      foreignKeys := .int 1
      busyTimeout := .int (max 0 (small settings.busyTimeout))
      cacheSize := .int (small settings.cacheSize)
      tempStore := .int 2 }

end Connection

end DocIndex
