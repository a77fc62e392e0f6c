import DocIndex.Config.Toml.Quoted

/-! # Dates and times of TOML

A date is a day of the calendar, a time one of the day, with or without seconds. Both together may be
followed by the distance from universal time.
-/

namespace DocIndex

namespace Toml

def isLeapYear (year : Nat) : Bool := year % 4 == 0 && (year % 100 != 0 || year % 400 == 0)

def daysInMonth (year month : Nat) : Nat :=
  if month = 2 then (if isLeapYear year then 29 else 28)
  else if month = 4 ∨ month = 6 ∨ month = 9 ∨ month = 11 then 30
  else 31

/-- A number of exactly `count` digits that lies between two bounds. -/
def fixed? (count low high : Nat) : Reader Nat := fun cs =>
  let ds := cs.takeWhile Char.isDigit
  let n := ds.foldl (fun n c => 10 * n + Json.digitValue c) 0
  if ds.length = count ∧ low ≤ n ∧ n ≤ high then some (n, cs.drop count) else none

def expect? (c : Char) : List Char → Option (List Char)
  | d :: rest => if c = d then some rest else none
  | [] => none

def date? (cs : List Char) : Option (List Char) := do
  let (year, rest) ← fixed? 4 0 9999 cs
  let (month, rest) ← fixed? 2 1 12 (← expect? '-' rest)
  let (_, rest) ← fixed? 2 1 (daysInMonth year month) (← expect? '-' rest)
  some rest

def clock? (cs : List Char) : Option (List Char) := do
  let (_, rest) ← fixed? 2 0 23 cs
  let (_, rest) ← fixed? 2 0 59 (← expect? ':' rest)
  some rest

/-- The rest after a time. A fraction follows full seconds, of which a leap second is the sixtieth. -/
def time? (cs : List Char) : Option (List Char) := do
  match ← clock? cs with
  | ':' :: rest =>
    let (_, rest) ← fixed? 2 0 60 rest
    match rest with
    | '.' :: fraction =>
      let ds := fraction.takeWhile Char.isDigit
      if ds.isEmpty then none else some (fraction.drop ds.length)
    | rest => some rest
  | rest => some rest

def isOffset : List Char → Bool
  | [] => true
  | [c] => c == 'Z' || c == 'z'
  | c :: rest => (c == '+' || c == '-') && clock? rest == some []

def isDate (cs : List Char) : Bool := date? cs == some []

def isMoment (cs : List Char) : Bool :=
  match date? cs with
  | some [] => true
  | some (c :: rest) => (c == 'T' || c == 't' || c == ' ') && (time? rest).any isOffset
  | none => time? cs == some []

end Toml

end DocIndex
