/-! # Settings of a database connection -/

namespace DocIndex

def memoryPath : String := ":memory:"

structure ConnectionSettings where
  path : String := memoryPath
  /-- Keep a write-ahead log; a database in memory has none. -/
  writeAhead : Bool := true
  foreignKeys : Bool := true
  busyTimeout : Int := 5000
  /-- Pages of the cache, or its size in KiB if negative. -/
  cacheSize : Int := -8000
  /-- Bytes that are mapped into memory; none if 0. -/
  mappedSize : Int := 0
  deriving DecidableEq, Repr

namespace ConnectionSettings

def isMemory (s : ConnectionSettings) : Bool := s.path == memoryPath

end ConnectionSettings

end DocIndex
