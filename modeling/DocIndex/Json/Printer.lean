import DocIndex.Json.Value
import DocIndex.Number.Decimal
import DocIndex.Text.Hidden

/-! # JSON text

`Json.text` is the compact form: no blanks, members in key order, only quotes, backslashes and
control characters escaped. `Json.outline` names the constructor of every value, for messages about
values that are no text.
-/

namespace DocIndex

namespace Json

/-- Numbers below `10 ^ 16` and down to `10 ^ -5` have no exponent. -/
def numberLayout : DecimalLayout := { low := -5, high := 16 }

namespace Number

def text : Number → String
  | .int i => toString i
  | .float x => x.text numberLayout

end Number

def hexDigit (n : Nat) : Char := (Nat.digitChar (n % 16))

/-- The characters that stand for `c` inside quotes. -/
def escapeChar (c : Char) : List Char :=
  if c = '"' then ['\\', '"']
  else if c = '\\' then ['\\', '\\']
  else if c = '\x08' then ['\\', 'b']
  else if c = '\t' then ['\\', 't']
  else if c = '\n' then ['\\', 'n']
  else if c = '\x0c' then ['\\', 'f']
  else if c = '\r' then ['\\', 'r']
  else if c.toNat < 32 then ['\\', 'u', '0', '0', hexDigit (c.toNat / 16), hexDigit c.toNat]
  else [c]

def quoteChars (cs : List Char) : List Char := '"' :: cs.flatMap escapeChar ++ ['"']

def quote (s : String) : String := String.ofList (quoteChars s.toList)

mutual

def text : Json → String
  | .null => "null"
  | .bool true => "true"
  | .bool false => "false"
  | .number n => n.text
  | .string s => quote s
  | .array items => "[" ++ ",".intercalate (itemTexts items) ++ "]"
  | .object members => "\x7b" ++ ",".intercalate (memberTexts members) ++ "\x7d"

def itemTexts : List Json → List String
  | [] => []
  | v :: rest => v.text :: itemTexts rest

def memberTexts : List (String × Json) → List String
  | [] => []
  | (k, v) :: rest => (quote k ++ ":" ++ v.text) :: memberTexts rest

end

/-- The characters that show `c`, with `mark` as the quote around it. -/
def outlineChar (mark c : Char) : List Char :=
  if c = mark ∨ c = '\\' then ['\\', c]
  else if c = '\t' then ['\\', 't']
  else if c = '\n' then ['\\', 'n']
  else if c = '\r' then ['\\', 'r']
  else if c.toNat = 0 then ['\\', '0']
  else if isHidden c then ['\\', 'u', '\x7b'] ++ Nat.toDigits 16 c.toNat ++ ['\x7d']
  else [c]

/-- A quoted text in which hidden characters are given by their code point. -/
def outlineString (s : String) : String :=
  String.ofList ('"' :: s.toList.flatMap (outlineChar '"') ++ ['"'])

mutual

def outline : Json → String
  | .null => "Null"
  | .bool true => "Bool(true)"
  | .bool false => "Bool(false)"
  | .number n => "Number(" ++ n.text ++ ")"
  | .string s => "String(" ++ outlineString s ++ ")"
  | .array items => "Array [" ++ ", ".intercalate (itemOutlines items) ++ "]"
  | .object members => "Object \x7b" ++ ", ".intercalate (memberOutlines members) ++ "\x7d"

def itemOutlines : List Json → List String
  | [] => []
  | v :: rest => v.outline :: itemOutlines rest

def memberOutlines : List (String × Json) → List String
  | [] => []
  | (k, v) :: rest => (outlineString k ++ ": " ++ v.outline) :: memberOutlines rest

end

end Json

end DocIndex
