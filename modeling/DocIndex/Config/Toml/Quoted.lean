import DocIndex.Json.Reader

/-! # Quoted strings of TOML

A string stands between double quotes, with escapes, or between single quotes, without. Three quotes
instead of one begin and end a string of several lines. Such a string does not begin with a line break,
may end in two quotes of its own, and in double quotes a backslash at the end of a line joins what comes
next, blanks and line breaks left out.
-/

namespace DocIndex

namespace Toml

/-- A reader takes characters from the front and returns the rest. -/
abbrev Reader (α : Type) := List Char → Option (α × List Char)

def isBlank (c : Char) : Bool := c == ' ' || c == '\t'

def skipBlanks (cs : List Char) : List Char := cs.dropWhile isBlank

def isControl (c : Char) : Bool := (c.toNat < 32 && c != '\t') || c.toNat == 127

/-- Whether a character breaks the line: a line feed, or a carriage return in front of one. -/
def isLineBreak (c : Char) (rest : List Char) : Bool := c == '\n' || c == '\r' && rest.head? == some '\n'

def dropLineBreak : List Char → List Char
  | '\n' :: rest => rest
  | '\r' :: '\n' :: rest => rest
  | cs => cs

/-- The end of a string, if it comes here, with the quotes in front of it that belong to the string. -/
def close? (multiline : Bool) (quote : Char) (cs : List Char) : Option (List Char × List Char) :=
  let count := (cs.takeWhile (· == quote)).length
  if multiline then
    if count < 3 then none
    else some (List.replicate (min (count - 3) 2) quote, cs.drop (min count 5))
  else if count = 0 then none
  else some ([], cs.drop 1)

/-- Whether a character may stand in a string. -/
def admits (multiline : Bool) (c : Char) (rest : List Char) : Bool :=
  !isControl c || multiline && isLineBreak c rest

def literal (multiline : Bool) : Reader (List Char)
  | [] => none
  | c :: rest =>
    match close? multiline '\'' (c :: rest) with
    | some done => some done
    | none => do
      if !admits multiline c rest then none
      let (cs, after) ← literal multiline rest
      some (c :: cs, after)

inductive EscapeState where
  | plain
  | escape
  /-- In the digits of a code point, of which `left` have to come. -/
  | digits (left value : Nat)
  /-- In the blanks after a backslash that ends a line. -/
  | joining
  deriving DecidableEq, Repr

/-- Number of hexadecimal digits after the letter of an escape. -/
def escapeDigits? (c : Char) : Option Nat :=
  if c = 'x' then some 2 else if c = 'u' then some 4 else if c = 'U' then some 8 else none

def letterEscape? (c : Char) : Option Char :=
  if c = 'e' then some '\x1b' else if c = '/' then none else Json.simpleEscape? c

def character? (n : Nat) : Option Char :=
  if n < 0xd800 ∨ (0xe000 ≤ n ∧ n < 0x110000) then some (Char.ofNat n) else none

/-- Whether nothing but blanks stands in front of the next line break. -/
def endsLine (cs : List Char) : Bool :=
  match skipBlanks cs with
  | c :: rest => isLineBreak c rest
  | [] => false

def basic (multiline : Bool) (state : EscapeState) : Reader (List Char)
  | [] => none
  | c :: rest =>
    match state with
    | .escape =>
      match escapeDigits? c, letterEscape? c with
      | some count, _ => basic multiline (.digits count 0) rest
      | none, some ch => do
        let (cs, after) ← basic multiline .plain rest
        some (ch :: cs, after)
      | none, none => if multiline && endsLine (c :: rest) then basic multiline .joining rest else none
    | .digits left value => do
      let value := 16 * value + (← Json.hexValue? c)
      if 1 < left then basic multiline (.digits (left - 1) value) rest
      else
        let ch ← character? value
        let (cs, after) ← basic multiline .plain rest
        some (ch :: cs, after)
    | state =>
      if state = .joining && (isBlank c || isLineBreak c rest) then basic multiline .joining rest
      else if c = '\\' then basic multiline .escape rest
      else match close? multiline '"' (c :: rest) with
        | some done => some done
        | none => do
          if !admits multiline c rest then none
          let (cs, after) ← basic multiline .plain rest
          some (c :: cs, after)

def line? : Reader String
  | '"' :: rest => (basic false .plain rest).map fun (cs, after) => (String.ofList cs, after)
  | '\'' :: rest => (literal false rest).map fun (cs, after) => (String.ofList cs, after)
  | _ => none

def string? : Reader String
  | '"' :: '"' :: '"' :: rest =>
    (basic true .plain (dropLineBreak rest)).map fun (cs, after) => (String.ofList cs, after)
  | '\'' :: '\'' :: '\'' :: rest =>
    (literal true (dropLineBreak rest)).map fun (cs, after) => (String.ofList cs, after)
  | cs => line? cs

end Toml

end DocIndex
