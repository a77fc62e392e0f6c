/-! # Errors of the database file -/

namespace DocIndex

inductive StorageError where
  | connection (reason : String)
  | migration (component : String) (version : Int) (description reason : String)
  /-- The key is malformed, of no use, or does not open the file. -/
  | key (reason : String)
  | statement (reason : String)
  deriving DecidableEq, Repr

namespace StorageError

def message : StorageError → String
  | .connection reason => "Connection error: " ++ reason
  | .migration component version description reason =>
    "Schema error: Failed to apply " ++ component ++ " v" ++ toString version ++ " (" ++ description ++ "): " ++ reason
  | .key reason => "Encryption key error: " ++ reason
  | .statement reason => "SQLite error: " ++ reason

end StorageError

end DocIndex
