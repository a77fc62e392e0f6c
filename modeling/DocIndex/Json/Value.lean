import DocIndex.Number.Binary64

/-! # JSON values

Numbers keep the form they were written in: a whole number of 64 bits stays an integer, every other
number is a binary64. The members of an object are sorted by key, each key once, so equal objects
are equal values and every walk over an object meets its keys in the same order.
-/

namespace DocIndex

namespace Json

/-- A JSON number, by the form it was written in. -/
inductive Number where
  | int (value : Int)
  | float (value : Binary64)
  deriving DecidableEq, Repr

end Json

inductive Json where
  | null
  | bool (value : Bool)
  | number (value : Json.Number)
  | string (value : String)
  | array (items : List Json)
  | object (members : List (String × Json))
  deriving Repr

/-- The members of a JSON object, sorted by key. -/
abbrev Object := List (String × Json)

namespace Object

def get? (o : Object) (key : String) : Option Json := (o.find? (·.1 == key)).map (·.2)

def insert (key : String) (value : Json) : Object → Object
  | [] => [(key, value)]
  | (k, v) :: rest =>
    if key < k then (key, value) :: (k, v) :: rest
    else if key = k then (key, value) :: rest
    else (k, v) :: insert key value rest

/-- The object with these members; of two equal keys the later one counts. -/
def ofList (members : List (String × Json)) : Object :=
  members.foldl (fun o m => insert m.1 m.2 o) []

def keys (o : Object) : List String := o.map (·.1)

def restrict (o : Object) (keys : List String) : Object := o.filter (keys.contains ·.1)

end Object

namespace Json

instance : Inhabited Json := ⟨.null⟩

def int (i : Int) : Json := .number (.int i)

def asString? : Json → Option String
  | .string s => some s
  | _ => none

def asBool? : Json → Option Bool
  | .bool b => some b
  | _ => none

def asArray? : Json → Option (List Json)
  | .array items => some items
  | _ => none

def asObject? : Json → Option Object
  | .object members => some members
  | _ => none

/-- An integer; numbers written with a point or an exponent are none. -/
def asInt? : Json → Option Int
  | .number (.int i) => some i
  | _ => none

/-- Strings, numbers and booleans can be compared; null, arrays and objects cannot. -/
def isComparable : Json → Bool
  | .string _ | .number _ | .bool _ => true
  | _ => false

end Json

end DocIndex
