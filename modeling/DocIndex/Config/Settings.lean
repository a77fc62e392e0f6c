import DocIndex.Config.Toml
import DocIndex.Error
import DocIndex.Storage.Settings

/-! # Settings from configuration text

Keys that are not given keep their defaults, and unknown keys and tables are ignored.
-/

namespace DocIndex

structure ManagerSettings where
  /-- Changes that are applied in one transaction; 0 counts as 1. -/
  updateBatchSize : Nat := 500
  updateBeforeFind : Bool := true
  backfillNewIndexes : Bool := true
  defaultTokenizer : String := "unicode61"
  deriving DecidableEq, Repr

namespace Toml

/-- The value of a key, or its default. A table is no value of any setting. -/
def option? {α : Type} (members : Members) (key : String) (default : α) (read : TomlValue → Option α) : Option α :=
  match members.get? key with
  | some (.value v) => read v
  | some _ => none
  | none => some default

end Toml

namespace TomlValue

def asString? : TomlValue → Option String
  | .string s => some s
  | _ => none

def asBoolean? : TomlValue → Option Bool
  | .boolean b => some b
  | _ => none

def within? (low high : Int) : TomlValue → Option Int
  | .integer i => if low ≤ i ∧ i ≤ high then some i else none
  | _ => none

end TomlValue

namespace ManagerSettings

def read? (text : String) : Option ManagerSettings := do
  let members ← Toml.read? text
  let d : ManagerSettings := {}
  some
    { updateBatchSize := ← Toml.option? members "update_batch_size" d.updateBatchSize
        fun v => (v.within? 0 (Nat.pow 2 64 - 1)).map Int.toNat
      updateBeforeFind := ← Toml.option? members "update_before_find" d.updateBeforeFind TomlValue.asBoolean?
      backfillNewIndexes := ← Toml.option? members "backfill_new_indexes" d.backfillNewIndexes TomlValue.asBoolean?
      defaultTokenizer := ← Toml.option? members "default_tokenizer" d.defaultTokenizer TomlValue.asString? }

def ofText? (text : String) : Except QueryError ManagerSettings :=
  match read? text with
  | some s => .ok s
  | none => .error (.invalidIndexSettings (.badConfig "malformed text or a value of another type"))

end ManagerSettings

namespace ConnectionSettings

def ofText? (text : String) : Option ConnectionSettings := do
  let members ← Toml.read? text
  let d : ConnectionSettings := {}
  some
    { path := ← Toml.option? members "path" d.path TomlValue.asString?
      writeAhead := ← Toml.option? members "wal_mode" d.writeAhead TomlValue.asBoolean?
      foreignKeys := ← Toml.option? members "foreign_keys" d.foreignKeys TomlValue.asBoolean?
      busyTimeout := ← Toml.option? members "busy_timeout_ms" d.busyTimeout (TomlValue.within? 0 (Nat.pow 2 32 - 1))
      cacheSize := ← Toml.option? members "cache_size" d.cacheSize (TomlValue.within? (-(Nat.pow 2 63)) (Nat.pow 2 63 - 1))
      mappedSize := ← Toml.option? members "mmap_size" d.mappedSize (TomlValue.within? 0 (Nat.pow 2 64 - 1)) }

end ConnectionSettings

end DocIndex
