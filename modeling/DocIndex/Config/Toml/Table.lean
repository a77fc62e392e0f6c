import DocIndex.Config.Toml.Scalar

/-! # Tables of TOML

A text builds up one tree of tables. A header `[a.b]` begins a table, `[[a.b]]` the next table of a list,
and each key after it adds to that table; a dotted key adds to a table inside. What is missing on the way
is made. A table may be begun by one header only, and a key may be given once: what a header began is
closed to dotted keys, and what a dotted key made is closed to headers.
-/

namespace DocIndex

namespace Toml

/-- What made a table. -/
inductive TableOrigin where
  /-- The header of the table itself. -/
  | header
  /-- A header further down. -/
  | path
  | key
  deriving DecidableEq, Repr

inductive Item where
  | value (value : TomlValue)
  | table (origin : TableOrigin) (members : List (String × Item))
  /-- A list of tables; only the latest one can be added to. -/
  | tables (latest : List (String × Item))

abbrev Members := List (String × Item)

namespace Members

def get? (members : Members) (key : String) : Option Item := (members.find? (·.1 == key)).map (·.2)

def set (members : Members) (key : String) (item : Item) : Members :=
  if members.any (·.1 == key) then members.map fun m => if m.1 == key then (key, item) else m
  else members ++ [(key, item)]

/-- Change the table at the end of a path. Tables that are missing on the way are of the origin `made`, and
a dotted key does not enter a table that a header began. -/
def changeAt? (made : TableOrigin) (change : TableOrigin → Members → Option Members) :
    List String → TableOrigin → Members → Option Members
  | [], origin, members => change origin members
  | key :: path, _, members => do
    match members.get? key with
    | none => some (members.set key (.table made (← changeAt? made change path made [])))
    | some (.value _) => none
    | some (.table origin inner) =>
      if made = .key ∧ origin = .header then none
      else some (members.set key (.table origin (← changeAt? made change path origin inner)))
    | some (.tables latest) => some (members.set key (.tables (← changeAt? made change path .header latest)))

def beginTable? (key : String) (_ : TableOrigin) (members : Members) : Option Members :=
  match members.get? key with
  | none => some (members.set key (.table .header []))
  | some (.table .path inner) => some (members.set key (.table .header inner))
  | some _ => none

def beginElement? (key : String) (_ : TableOrigin) (members : Members) : Option Members :=
  match members.get? key with
  | none | some (.tables _) => some (members.set key (.tables []))
  | some _ => none

/-- Give a key its value. The last table that a dotted key enters is one that dotted keys made. -/
def put? (dotted : Bool) (key : String) (value : TomlValue) (origin : TableOrigin) (members : Members) :
    Option Members :=
  if dotted ∧ origin ≠ .key then none
  else match members.get? key with
    | none => some (members.set key (.value value))
    | some _ => none

def assign? (members : Members) (path key : List String) (value : TomlValue) : Option Members := do
  let last ← key.getLast?
  let inside := key.dropLast
  changeAt? .path (changeAt? .key (put? (!inside.isEmpty) last value) inside) path .header members

end Members

/-- A line of a text that is neither blank nor a comment. -/
inductive Line where
  | table (path : List String)
  | element (path : List String)
  | pair (key : List String) (value : TomlValue)

namespace Members

def ofLines? : List Line → (path : List String) → Members → Option Members
  | [], _, members => some members
  | .table path :: rest, _, members => do
    let last ← path.getLast?
    ofLines? rest path (← changeAt? .path (beginTable? last) path.dropLast .header members)
  | .element path :: rest, _, members => do
    let last ← path.getLast?
    ofLines? rest path (← changeAt? .path (beginElement? last) path.dropLast .header members)
  | .pair key value :: rest, path, members => do
    ofLines? rest path (← members.assign? path key value)

end Members

end Toml

end DocIndex
