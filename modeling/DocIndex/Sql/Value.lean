import DocIndex.Json.Value

/-! # SQL values

A cell holds a value of one of four classes. Nulls come before numbers and numbers before texts;
integers and reals are compared by their exact values, texts by their characters.
-/

namespace DocIndex

inductive SqlValue where
  | null
  | int (value : Int)
  | real (value : Binary64)
  | text (value : String)
  deriving DecidableEq, Repr

namespace SqlValue

/-- The integers that a cell can hold. -/
def fitsInt (i : Int) : Bool := -(Nat.pow 2 63) ≤ i && i < Nat.pow 2 63

/-- The cell value of a number: an integer of 64 bits with sign, or else the nearest real. -/
def ofNumber : Json.Number → SqlValue
  | .int i => if fitsInt i then .int i else .real (Binary64.ofInt i)
  | .float x => .real x

/-- The cell value of a scalar; booleans become 0 and 1. Arrays and objects have none. -/
def ofJson? : Json → Option SqlValue
  | .null => some .null
  | .bool b => some (.int (if b then 1 else 0))
  | .number n => some (ofNumber n)
  | .string s => some (.text s)
  | .array _ | .object _ => none

def isNull : SqlValue → Bool
  | .null => true
  | _ => false

/-- A number in units of `2 ^ -1074`. -/
def units? : SqlValue → Option Int
  | .int i => some (i * Binary64.one)
  | .real x => some x.units
  | _ => none

def order : SqlValue → SqlValue → Ordering
  | .null, .null => .eq
  | .null, _ => .lt
  | _, .null => .gt
  | .text a, .text b => compareOfLessAndEq a b
  | .text _, _ => .gt
  | _, .text _ => .lt
  | .int a, .int b => compareOfLessAndEq a b
  | .int a, .real b => compareOfLessAndEq (a * Binary64.one) b.units
  | .real a, .int b => compareOfLessAndEq a.units (b * Binary64.one)
  | .real a, .real b => compareOfLessAndEq a.units b.units

end SqlValue

end DocIndex
