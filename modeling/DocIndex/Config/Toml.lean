import DocIndex.Config.Toml.Table

/-! # Configuration text

Configuration is written in lines of TOML: headers of tables, and keys, each with an equals sign and a
value, with blanks and comments around them. `Toml.read?` gives the keys in front of the first header and
the tables, and refuses a text with any faulty line or with a key that is given twice. Arrays, tables in
braces and some strings go on over several lines.
-/

namespace DocIndex

namespace Toml

/-- The text after the end of this line, if nothing but blanks and a comment stands in front of it. -/
def endLine? (cs : List Char) : Option (List Char) :=
  let rest := match skipBlanks cs with
    | '#' :: comment => comment.dropWhile (!isControl ·)
    | rest => rest
  match rest with
  | [] => some []
  | '\n' :: rest => some rest
  | '\r' :: '\n' :: rest => some rest
  | _ => none

/-- Skip blanks, comments and line breaks; `fuel` bounds the number of lines. -/
def skipLines : Nat → List Char → List Char
  | 0, cs => cs
  | fuel + 1, cs =>
    match endLine? cs with
    | some [] => []
    | some rest => skipLines fuel rest
    | none => skipBlanks cs

def isKeyChar (c : Char) : Bool := c.isAlphanum || c == '_' || c == '-'

def keyPart? (cs : List Char) : Option (String × List Char) :=
  match line? cs with
  | some part => some part
  | none =>
    let part := cs.takeWhile isKeyChar
    if part.isEmpty then none else some (String.ofList part, cs.dropWhile isKeyChar)

/-- The parts of a dotted key; `fuel` bounds their number. -/
def keyParts? : Nat → Reader (List String)
  | 0, _ => none
  | fuel + 1, cs => do
    let (part, rest) ← keyPart? (skipBlanks cs)
    match skipBlanks rest with
    | '.' :: rest =>
      let (more, rest) ← keyParts? fuel rest
      some (part :: more, rest)
    | rest => some ([part], rest)

/-- How many parts a key may have, and how deep arrays and tables in braces may be nested. -/
def maxDepth : Nat := 80

def key? : Reader (List String) := keyParts? maxDepth

/-- A key with its value. Around the equals sign the text may be skipped as told. -/
def pair? (skip : List Char → List Char) (value? : Reader TomlValue) : Reader (List String × TomlValue) :=
  fun cs => do
    let (key, rest) ← key? cs
    match skip rest with
    | '=' :: rest =>
      let (value, rest) ← value? (skip rest)
      some ((key, value), rest)
    | _ => none

/-- Whether two keys cannot both be given: they are equal, or one is a table of the other. -/
def clash (a b : List String) : Bool := a.isPrefixOf b || b.isPrefixOf a

mutual

/-- A value in which arrays and tables are nested at most `depth` deep; `fuel` bounds how wide it is. -/
def value? : (fuel depth : Nat) → Reader TomlValue
  | 0, _, _ => none
  | fuel + 1, depth, cs =>
    match cs, depth with
    | '"' :: _, _ | '\'' :: _, _ => (string? cs).map fun (s, rest) => (.string s, rest)
    | '[' :: rest, depth + 1 => (items? fuel depth rest).map fun rest => (.other, rest)
    | '\x7b' :: rest, depth + 1 => (members? fuel depth [] rest).map fun rest => (.other, rest)
    | cs, _ => scalar? cs

/-- The text after the rest of an array. -/
def items? : (fuel depth : Nat) → List Char → Option (List Char)
  | 0, _, _ => none
  | fuel + 1, depth, cs =>
    match skipLines cs.length cs with
    | ']' :: rest => some rest
    | cs => do
      let (_, rest) ← value? fuel depth cs
      match skipLines rest.length rest with
      | ',' :: rest => items? fuel depth rest
      | ']' :: rest => some rest
      | _ => none

/-- The text after the rest of a table in braces, of which some keys were read. -/
def members? : (fuel depth : Nat) → List (List String) → List Char → Option (List Char)
  | 0, _, _, _ => none
  | fuel + 1, depth, seen, cs =>
    match skipLines cs.length cs with
    | '\x7d' :: rest => some rest
    | cs => do
      let ((key, _), rest) ← pair? (fun cs => skipLines cs.length cs) (value? fuel depth) cs
      if seen.any (clash key) then none
      match skipLines rest.length rest with
      | ',' :: rest => members? fuel depth (key :: seen) rest
      | '\x7d' :: rest => some rest
      | _ => none

end

def Line.read? (cs : List Char) : Option (Line × List Char) :=
  match skipBlanks cs with
  | '[' :: '[' :: rest => do
    match ← key? rest with
    | (path, ']' :: ']' :: rest) => some (.element path, rest)
    | _ => none
  | '[' :: rest => do
    match ← key? rest with
    | (path, ']' :: rest) => some (.table path, rest)
    | _ => none
  | rest => (pair? skipBlanks (value? cs.length maxDepth) rest).map fun ((key, value), rest) => (.pair key value, rest)

/-- The lines of a text; `fuel` bounds their number. -/
def lines? : Nat → List Char → Option (List Line)
  | _, [] => some []
  | 0, _ => none
  | fuel + 1, cs =>
    match endLine? cs with
    | some rest => lines? fuel rest
    | none => do
      let (line, rest) ← Line.read? cs
      some (line :: (← lines? fuel (← endLine? rest)))

/-- A byte order mark may stand in front of a configuration. -/
def read? (text : String) : Option Members := do
  let cs := match text.toList with
    | '\ufeff' :: rest => rest
    | cs => cs
  Members.ofLines? (← lines? (cs.length + 1) cs) [] []

end Toml

end DocIndex
