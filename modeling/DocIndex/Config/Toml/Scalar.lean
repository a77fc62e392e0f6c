import DocIndex.Config.Toml.Moment

/-! # Values of one word

A value that is no string, no array and no table is one word: a truth value, an integer, a float, a date
or a time. Only a date and a time with a blank between them take two.
-/

namespace DocIndex

inductive TomlValue where
  | string (value : String)
  | integer (value : Int)
  | boolean (value : Bool)
  /-- A float, a date or a time, an array or a table. -/
  | other
  deriving DecidableEq, Repr

namespace Toml

/-- Digits with single underscores between them. -/
def digits? (isDigit : Char → Bool) : List Char → Option (List Char)
  | [] => none
  | [c] => if isDigit c then some [c] else none
  | c :: '_' :: rest => if isDigit c then (digits? isDigit rest).map (c :: ·) else none
  | c :: rest => if isDigit c then (digits? isDigit rest).map (c :: ·) else none

def valueOf (base : Nat) (digits : List Char) : Nat :=
  digits.foldl (fun n c => base * n + (Json.hexValue? c).getD 0) 0

/-- Decimal digits in front of a point, an exponent or the end; a leading zero stands alone. -/
def wholeDigits? (cs : List Char) : Option (List Char) := do
  let ds ← digits? Char.isDigit cs
  if ds.length ≠ 1 ∧ ds.head? = some '0' then none else some ds

def natural? : List Char → Option Nat
  | '0' :: 'x' :: rest => (digits? (fun c => (Json.hexValue? c).isSome) rest).map (valueOf 16)
  | '0' :: 'o' :: rest => (digits? (fun c => '0' ≤ c && c ≤ '7') rest).map (valueOf 8)
  | '0' :: 'b' :: rest => (digits? (fun c => c == '0' || c == '1') rest).map (valueOf 2)
  | cs => (wholeDigits? cs).map (valueOf 10)

/-- An integer of up to 128 bits; a sign may stand in front of one in base ten. -/
def integer? (word : List Char) : Option Int := do
  let n : Int ← match word with
    | '-' :: cs => (wholeDigits? cs).map fun ds => -(valueOf 10 ds : Int)
    | '+' :: cs => (wholeDigits? cs).map fun ds => (valueOf 10 ds : Int)
    | cs => (natural? cs).map Int.ofNat
  if -(Nat.pow 2 127) ≤ n ∧ n < Nat.pow 2 128 then some n else none

def isDigitOrJoint (c : Char) : Bool := c.isDigit || c == '_'

/-- The exponent at the end of a float; 0 if the float ends before it. -/
def exponent? : List Char → Option Int
  | [] => some 0
  | e :: rest =>
    if e = 'e' ∨ e = 'E' then
      match rest with
      | '-' :: cs => (digits? Char.isDigit cs).map fun ds => -(valueOf 10 ds : Int)
      | '+' :: cs => (digits? Char.isDigit cs).map fun ds => (valueOf 10 ds : Int)
      | cs => (digits? Char.isDigit cs).map fun ds => (valueOf 10 ds : Int)
    else none

def decimal? (word : List Char) : Option Decimal := do
  let whole ← wholeDigits? (word.takeWhile isDigitOrJoint)
  match word.dropWhile isDigitOrJoint with
  | [] => none
  | '.' :: rest =>
    let fraction ← digits? Char.isDigit (rest.takeWhile isDigitOrJoint)
    let e ← exponent? (rest.dropWhile isDigitOrJoint)
    some ⟨valueOf 10 (whole ++ fraction), e - fraction.length⟩
  | rest => some ⟨valueOf 10 whole, ← exponent? rest⟩

def isUnsignedFloat (word : List Char) : Bool :=
  word == "inf".toList || word == "nan".toList || (decimal? word).any (!·.overflows)

def isFloat : List Char → Bool
  | '+' :: word | '-' :: word => isUnsignedFloat word
  | word => isUnsignedFloat word

def isWordChar (c : Char) : Bool :=
  !(isBlank c || c == '\n' || c == '\r' || c == '#' || c == ',' || c == ']' || c == '\x7d')

def moment? (cs : List Char) : Option (List Char) :=
  let word := cs.takeWhile isWordChar
  match cs.dropWhile isWordChar with
  | ' ' :: c :: rest =>
    let second := (c :: rest).takeWhile isWordChar
    if isDate word && c.isDigit then
      if isMoment (word ++ ' ' :: second) then some ((c :: rest).dropWhile isWordChar) else none
    else if isMoment word then some (' ' :: c :: rest)
    else none
  | rest => if isMoment word then some rest else none

def scalar? : Reader TomlValue := fun cs =>
  let word := cs.takeWhile isWordChar
  let rest := cs.dropWhile isWordChar
  if word = "true".toList then some (.boolean true, rest)
  else if word = "false".toList then some (.boolean false, rest)
  else match integer? word with
    | some n => some (.integer n, rest)
    | none => if isFloat word then some (.other, rest) else (moment? cs).map fun rest => (.other, rest)

end Toml

end DocIndex
