import DocIndex.Sql.Fragment

/-! # Arguments of a table declaration

A declaration gives its table columns and options, with commas between them, up to a closing parenthesis.
A column is a name, to which one word may be added; an option is a name with an equals sign and a value.
Names and values are bare words or stand in quotes or brackets. Blanks and comments around an argument do
not count; inside of one only spaces may stand. An empty argument is left out, and the text ends at a null
character.
-/

namespace DocIndex

inductive TableArgument where
  | column (name : String) (extra? : Option String)
  | option (name value : String)
  deriving DecidableEq, Repr

namespace TableArgument

inductive Piece where
  | word (text : String) (quoted : Bool)
  | equals
  | spaces
  /-- Other blanks, or a comment. -/
  | gap
  deriving DecidableEq, Repr

def isBlank (c : Char) : Bool := c == ' ' || c == '\t' || c == '\n' || c == '\x0c' || c == '\r'

/-- Blanks, and what may follow a blank. -/
def isSpace (c : Char) : Bool := isBlank c || c == '\x0b'

def isWordChar (c : Char) : Bool := c.isAlphanum || c == '_' || 128 ≤ c.toNat

/-- A digit, or the underscore that may divide digits. -/
def isDigitOrDivider (c : Char) : Bool := c.isDigit || c == '_'

def isHexDigit (c : Char) : Bool :=
  c.isDigit || 'a' ≤ c && c ≤ 'f' || 'A' ≤ c && c ≤ 'F'

/-- Whether a word that begins with a digit is a number: decimal, with or without an exponent, or
hexadecimal. -/
def isNumber (word : List Char) : Bool :=
  match word with
  | '0' :: x :: d :: rest =>
    if (x = 'x' ∨ x = 'X') ∧ isHexDigit d then rest.all fun c => isHexDigit c || c == '_' else decimal word
  | _ => decimal word
where
  decimal (word : List Char) : Bool :=
    match word.dropWhile isDigitOrDivider with
    | [] => true
    | e :: d :: rest => (e == 'e' || e == 'E') && d.isDigit && rest.all isDigitOrDivider
    | [_] => false

/-- Whether a bare word can stand in front of this text. A word that begins with a digit has to be a number,
and in front of a single quote the word `x` means something else. -/
def isWord (word rest : List Char) : Bool :=
  if word.head?.any Char.isDigit then isNumber word
  else !((word == ['x'] || word == ['X']) && rest.head? == some '\'')

/-- The text after a comment of several lines, which may be left open. -/
def dropComment : List Char → List Char
  | '*' :: '/' :: rest => rest
  | _ :: rest => dropComment rest
  | [] => []

/-- The text after a comment, if one stands in front. -/
def comment? : List Char → Option (List Char)
  | '-' :: '-' :: rest => some (rest.dropWhile (· != '\n'))
  | '/' :: '*' :: c :: rest => some (dropComment (c :: rest))
  | _ => none

/-- The piece in front of a text, and what follows. -/
def piece? (cs : List Char) : Option (Piece × List Char) :=
  match comment? cs, cs with
  | some rest, _ => some (.gap, rest)
  | none, [] => none
  | none, c :: rest =>
    if c = '=' then some (.equals, rest)
    else if isBlank c then
      some (if (cs.takeWhile isSpace).all (· == ' ') then .spaces else .gap, rest.dropWhile isSpace)
    else if c = '"' ∨ c = '\'' ∨ c.toNat = 0x60 then
      (quoted? c rest).map fun (text, rest) => (.word (String.ofList text) true, rest)
    else if c = '[' then
      match rest.dropWhile (· != ']') with
      | _ :: after => some (.word (String.ofList (rest.takeWhile (· != ']'))) true, after)
      | [] => none
    else
      let word := cs.takeWhile isWordChar
      let rest := cs.dropWhile isWordChar
      if !word.isEmpty && isWord word rest then some (.word (String.ofList word) false, rest) else none

def isGap : Piece → Bool
  | .spaces | .gap => true
  | _ => false

/-- The argument that some pieces make, of which the last comes first; none if there are only gaps. -/
def ofPieces? (pieces : List Piece) : Option (Option TableArgument) :=
  let inner := ((pieces.dropWhile isGap).reverse.dropWhile isGap).filter (· != .spaces)
  match inner with
  | [] => some none
  | [.word name _] => some (some (.column name none))
  | [.word name _, .word extra _] => some (some (.column name (some extra)))
  | [.word name false, .equals] => some (some (.option name ""))
  | [.word name false, .equals, .word value _] => some (some (.option name value))
  | _ => none

/-- Whether nothing but blanks, comments and semicolons is left; `fuel` bounds their number. -/
def isEnd : Nat → List Char → Bool
  | _, [] => true
  | 0, _ => false
  | fuel + 1, c :: rest =>
    match comment? (c :: rest) with
    | some rest => isEnd fuel rest
    | none => if isBlank c then isEnd fuel (rest.dropWhile isSpace) else c == ';' && isEnd fuel rest

/-- The arguments in front of the closing parenthesis, some pieces of the first of them having been read;
`fuel` bounds the number of pieces. -/
def readFrom? : Nat → List Piece → List Char → Option (List TableArgument)
  | 0, _, _ => none
  | fuel + 1, pieces, cs =>
    match cs with
    | ',' :: rest => do
      let first ← ofPieces? pieces
      some (first.toList ++ (← readFrom? fuel [] rest))
    | ')' :: rest => do
      let last ← ofPieces? pieces
      if isEnd (rest.length + 1) rest then some last.toList else none
    | cs => do
      let (piece, rest) ← piece? cs
      readFrom? fuel (piece :: pieces) rest

/-- Read arguments up to the closing parenthesis and the end of the text. -/
def readAll? (text : String) : Option (List TableArgument) :=
  let cs := text.toList.takeWhile (· != '\x00')
  readFrom? (cs.length + 1) [] cs

end TableArgument

end DocIndex
