import DocIndex.Number.Decimal
import DocIndex.Sql.Value

/-! # Column types

A column declared for texts turns numbers into their texts. A column declared for integers takes a real
without fraction as an integer, and a text that is a number as that number; anything else it keeps as it is.
-/

namespace DocIndex

namespace Numeral

def isBlank (c : Char) : Bool := c == ' ' || 9 ≤ c.toNat && c.toNat ≤ 13

/-- The digits in front of a text as a number, how many there are, and what follows. -/
def digits (cs : List Char) : Nat × Nat × List Char :=
  let ds := cs.takeWhile Char.isDigit
  ((String.ofList ds).toNat?.getD 0, ds.length, cs.drop ds.length)

/-- Exponents count up to this size. -/
def maxExponent : Nat := 10000

/-- The exponent that a number ends in; 0 if it ends before. -/
def exponent? : List Char → Option Int
  | [] => some 0
  | e :: rest =>
    if e = 'e' ∨ e = 'E' then
      let (negative, rest) := match rest with
        | '-' :: rest => (true, rest)
        | '+' :: rest => (false, rest)
        | rest => (false, rest)
      match digits rest with
      | (n, count, []) =>
        if count = 0 then none
        else some (if negative then -(min n maxExponent : Nat) else (min n maxExponent : Nat))
      | _ => none
    else none

/-- A number without sign: digits, which a point may divide, and an exponent. Tells whether there are digits
only. -/
def unsigned? (cs : List Char) : Option (Decimal × Bool) :=
  match digits cs with
  | (whole, count, '.' :: rest) => do
    let (fraction, places, rest) := digits rest
    if count + places = 0 then none
    some (⟨whole * Nat.pow 10 places + fraction, (← exponent? rest) - places⟩, false)
  | (whole, count, rest) => do
    if count = 0 then none
    some (⟨whole, ← exponent? rest⟩, rest.isEmpty)

end Numeral

namespace SqlValue

/-- How a real is written as text: by 15 digits, and without exponent below `10 ^ 15` and down to `10 ^ -4`. -/
def realLayout : DecimalLayout :=
  { low := -4, high := 15, precision? := some 15, pointed := true, exponentWidth := 2, signedZero := false }

/-- What a column for texts keeps of a value; null stays null. -/
def text? : SqlValue → Option String
  | .null => none
  | .int i => some (toString i)
  | .real x => some (x.text realLayout)
  | .text s => some s

/-- The integer that a real is, if it lies between the least and the greatest integer of a cell. -/
def wholeReal? (x : Binary64) : Option Int :=
  let i := x.units / Binary64.one
  if x.isFinite ∧ x.units % Binary64.one = 0 ∧ -(Nat.pow 2 63) < i ∧ i < Nat.pow 2 63 - 1 then some i else none

def nearestReal (d : Decimal) : Binary64 :=
  if d.overflows then Binary64.infinity
  else Binary64.nearest (d.digits * Nat.pow 10 d.exponent.toNat) (Nat.pow 10 (-d.exponent).toNat)

/-- The integer that a text is read as. Digits are taken exactly, other numbers as the nearest real. -/
def wholeText? (text : String) : Option Int := do
  let cs := ((text.toList.dropWhile Numeral.isBlank).reverse.dropWhile Numeral.isBlank).reverse
  let (negative, cs) := match cs with
    | '-' :: rest => (true, rest)
    | '+' :: rest => (false, rest)
    | cs => (false, cs)
  let (d, exact) ← Numeral.unsigned? cs
  let exactly : Int := if negative then -(d.digits : Int) else d.digits
  if exact ∧ fitsInt exactly then some exactly
  else
    let x := nearestReal d
    wholeReal? (if negative then x.negate else x)

/-- The integer that a column for integers keeps of a value, if it keeps one. -/
def integer? : SqlValue → Option Int
  | .null => none
  | .int i => some i
  | .real x => wholeReal? x
  | .text s => wholeText? s

end SqlValue

end DocIndex
