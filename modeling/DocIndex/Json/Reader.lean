import DocIndex.Json.Value
import DocIndex.Number.Decimal

/-! # Reading JSON text

`Json.read?` reads one value with nothing but blanks around it. A whole number of 64 bits (and not
`-0`) is an integer; any other number becomes a binary64 from the first 64 bits' worth of digits. Of
two members with the same key the later one counts.
-/

namespace DocIndex

namespace Json

def isBlank (c : Char) : Bool := c = ' ' || c = '\n' || c = '\t' || c = '\r'

def skipBlanks : List Char → List Char
  | [] => []
  | c :: rest => if isBlank c then skipBlanks rest else c :: rest

def hexValue? (c : Char) : Option Nat :=
  if '0' ≤ c ∧ c ≤ '9' then some (c.toNat - '0'.toNat)
  else if 'a' ≤ c ∧ c ≤ 'f' then some (c.toNat - 'a'.toNat + 10)
  else if 'A' ≤ c ∧ c ≤ 'F' then some (c.toNat - 'A'.toNat + 10)
  else none

def hexQuad? (a b c d : Char) : Option Nat := do
  some (4096 * (← hexValue? a) + 256 * (← hexValue? b) + 16 * (← hexValue? c) + (← hexValue? d))

def simpleEscape? (c : Char) : Option Char :=
  if c = '"' ∨ c = '\\' ∨ c = '/' then some c
  else if c = 'b' then some '\x08'
  else if c = 'f' then some '\x0c'
  else if c = 'n' then some '\n'
  else if c = 'r' then some '\r'
  else if c = 't' then some '\t'
  else none

/-- Characters up to the closing quote, and what follows it. -/
def readChars : List Char → Option (List Char × List Char)
  | [] => none
  | '"' :: rest => some ([], rest)
  | '\\' :: 'u' :: a :: b :: c :: d :: rest => do
    let n ← hexQuad? a b c d
    if 0xd800 ≤ n ∧ n < 0xdc00 then
      match rest with
      | '\\' :: 'u' :: e :: f :: g :: h :: rest =>
        let m ← hexQuad? e f g h
        if 0xdc00 ≤ m ∧ m < 0xe000 then
          let (cs, after) ← readChars rest
          some (Char.ofNat (0x10000 + (n - 0xd800) * 0x400 + (m - 0xdc00)) :: cs, after)
        else none
      | _ => none
    else if 0xdc00 ≤ n ∧ n < 0xe000 then none
    else
      let (cs, after) ← readChars rest
      some (Char.ofNat n :: cs, after)
  | '\\' :: c :: rest => do
    let e ← simpleEscape? c
    let (cs, after) ← readChars rest
    some (e :: cs, after)
  | c :: rest =>
    if c.toNat < 32 ∨ c = '\\' then none
    else do
      let (cs, after) ← readChars rest
      some (c :: cs, after)

def digitValue (c : Char) : Nat := c.toNat - '0'.toNat

def takeDigits : List Char → List Nat × List Char
  | [] => ([], [])
  | c :: rest =>
    if c.isDigit then
      let (ds, after) := takeDigits rest
      (digitValue c :: ds, after)
    else ([], c :: rest)

/-- The largest significand of 64 bits. -/
def maxSignificand : Nat := Nat.pow 2 64 - 1

/-- Append digits to a significand as long as it fits 64 bits; the second part counts the digits
left out. -/
def accumulate (start : Nat) : List Nat → Nat × Nat
  | [] => (start, 0)
  | d :: ds => if 10 * start + d ≤ maxSignificand then accumulate (10 * start + d) ds else (start, ds.length + 1)

def ofDigits (ds : List Nat) : Nat := ds.foldl (fun n d => 10 * n + d) 0

def readExponent : List Char → Option (Option Int × List Char)
  | c :: rest =>
    if c = 'e' ∨ c = 'E' then
      let (negative, rest) := match rest with
        | '-' :: r => (true, r)
        | '+' :: r => (false, r)
        | r => (false, r)
      match takeDigits rest with
      | ([], _) => none
      | (ds, after) => some (some (if negative then -(ofDigits ds : Int) else ofDigits ds), after)
    else some (none, c :: rest)
  | [] => some (none, [])

/-- The digits after the point, if there is one; at least one has to follow it. -/
def readFraction : List Char → Option (Option (List Nat) × List Char)
  | '.' :: rest =>
    match takeDigits rest with
    | ([], _) => none
    | (ds, after) => some (some ds, after)
  | rest => some (none, rest)

/-- The number with these digits before and after the point and this exponent. -/
def Number.ofParts? (negative : Bool) (whole : List Nat) (fraction : Option (List Nat))
    (exponent : Option Int) : Option Number :=
  let n := ofDigits whole
  if fraction.isNone ∧ exponent.isNone ∧ (if negative then 0 < n ∧ n ≤ Nat.pow 2 63 else n ≤ maxSignificand) then
    some (.int (if negative then -(n : Int) else n))
  else do
    let (head, dropped) := accumulate 0 whole
    let tail := fraction.getD []
    let (significand, ignored) := accumulate head tail
    let e : Int := exponent.getD 0 + dropped - ((tail.length - ignored : Nat) : Int)
    let x ← Binary64.ofDecimal? significand e
    some (.float (if negative then x.negate else x))

def readNumber (text : List Char) : Option (Number × List Char) := do
  let (negative, rest) := match text with
    | '-' :: r => (true, r)
    | r => (false, r)
  match takeDigits rest with
  | ([], _) => none
  | (0 :: _ :: _, _) => none
  | (whole, rest) =>
    let (fraction, rest) ← readFraction rest
    let (exponent, rest) ← readExponent rest
    some (← Number.ofParts? negative whole fraction exponent, rest)

mutual

def readValue : Nat → List Char → Option (Json × List Char)
  | 0, _ => none
  | fuel + 1, text =>
    match skipBlanks text with
    | 'n' :: 'u' :: 'l' :: 'l' :: rest => some (.null, rest)
    | 't' :: 'r' :: 'u' :: 'e' :: rest => some (.bool true, rest)
    | 'f' :: 'a' :: 'l' :: 's' :: 'e' :: rest => some (.bool false, rest)
    | '"' :: rest => do
      let (cs, after) ← readChars rest
      some (.string (String.ofList cs), after)
    | '[' :: rest =>
      match skipBlanks rest with
      | ']' :: after => some (.array [], after)
      | rest => do
        let (items, after) ← readItems fuel rest
        some (.array items, after)
    | '\x7b' :: rest =>
      match skipBlanks rest with
      | '\x7d' :: after => some (.object [], after)
      | rest => do
        let (members, after) ← readMembers fuel rest
        some (.object (Object.ofList members), after)
    | rest => do
      let (n, after) ← readNumber rest
      some (.number n, after)

def readItems : Nat → List Char → Option (List Json × List Char)
  | 0, _ => none
  | fuel + 1, text => do
    let (v, rest) ← readValue fuel text
    match skipBlanks rest with
    | ']' :: after => some ([v], after)
    | ',' :: rest =>
      let (items, after) ← readItems fuel rest
      some (v :: items, after)
    | _ => none

def readMembers : Nat → List Char → Option (List (String × Json) × List Char)
  | 0, _ => none
  | fuel + 1, text =>
    match skipBlanks text with
    | '"' :: rest => do
      let (key, rest) ← readChars rest
      match skipBlanks rest with
      | ':' :: rest =>
        let (v, rest) ← readValue fuel rest
        match skipBlanks rest with
        | '\x7d' :: after => some ([(String.ofList key, v)], after)
        | ',' :: rest =>
          let (members, after) ← readMembers fuel rest
          some ((String.ofList key, v) :: members, after)
        | _ => none
      | _ => none
    | _ => none

end

/-- The value a text holds; the text's length bounds how deep and how wide the value can be. -/
def read? (text : String) : Option Json :=
  match readValue (text.length + 1) text.toList with
  | some (v, rest) => if skipBlanks rest = [] then some v else none
  | none => none

/-- The members of the object a text holds, in the order they are written and with repeated keys. -/
def readObject? (text : String) : Option (List (String × Json)) :=
  match skipBlanks text.toList with
  | '\x7b' :: rest =>
    let found := match skipBlanks rest with
      | '\x7d' :: after => some ([], after)
      | rest => readMembers (text.length + 1) rest
    match found with
    | some (members, after) => if skipBlanks after = [] then some members else none
    | none => none
  | _ => none

end Json

end DocIndex
