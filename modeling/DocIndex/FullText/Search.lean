import DocIndex.FullText.Expression
import DocIndex.FullText.Form

/-! # Reading search texts

A search text is made of words, quoted phrases and operators. Words side by side must all occur;
`NOT` binds more tightly than `AND`, and `AND` more tightly than `OR`. A star opens the last word of a
phrase, a plus joins phrases, a caret ties one to the start of its column, `NEAR(...)` asks for phrases
close together, and columns before a colon limit what follows. A phrase without words matches nothing,
but among words side by side it is left out.

Pieces and the parts made of them are held in one stack until they can be put together, and the stack has
`capacity` places. Every reader is told how much `room` there is.
-/

namespace DocIndex

namespace FullText

inductive Mark where
  | string (text : String) (quoted : Bool)
  | and | or | not
  | openParen | closeParen | openBrace | closeBrace
  | colon | comma | plus | star | minus | caret
  deriving DecidableEq, Repr

/-- What has been read of a piece that is not complete, latest character first. -/
inductive Pending where
  | none
  | bare (read : List Char)
  | quoted (read : List Char)

def symbol? (c : Char) : Option Mark :=
  match c with
  | '(' => some .openParen
  | ')' => some .closeParen
  | '\x7b' => some .openBrace
  | '\x7d' => some .closeBrace
  | ':' => some .colon
  | ',' => some .comma
  | '+' => some .plus
  | '*' => some .star
  | '-' => some .minus
  | '^' => some .caret
  | _ => none

/-- The piece of a bare word. Only in upper case is it an operator. -/
def bareMark (read : List Char) : Mark :=
  let word := String.ofList read.reverse
  if word = "AND" then .and
  else if word = "OR" then .or
  else if word = "NOT" then .not
  else .string word false

/-- A character outside of words and quotes: the pieces it completes and the one it begins. -/
def begin? (c : Char) : Option (List Mark × Pending) :=
  if c = ' ' ∨ c = '\t' ∨ c = '\n' ∨ c = '\r' then some ([], .none)
  else if c = '"' then some ([], .quoted [])
  else if isBare c then some ([], .bare [c])
  else (symbol? c).map fun m => ([m], .none)

def marks : Pending → List Char → Option (List Mark)
  | .none, [] => some []
  | .bare read, [] => some [bareMark read]
  | .quoted _, [] => none
  | .quoted read, '"' :: '"' :: rest => marks (.quoted ('"' :: read)) rest
  | .quoted read, '"' :: rest => do
    some (.string (String.ofList read.reverse) true :: (← marks .none rest))
  | .quoted read, c :: rest => marks (.quoted (c :: read)) rest
  | .none, c :: rest => do
    let (done, pending) ← begin? c
    some (done ++ (← marks pending rest))
  | .bare read, c :: rest =>
    if isBare c then marks (.bare (c :: read)) rest
    else do
      let (done, pending) ← begin? c
      some (bareMark read :: done ++ (← marks pending rest))

/-- What a search text is read against: the tokenizer of the index, how closely it keeps the places of
words, and the names of its columns. -/
structure Scope where
  tokenizer : Tokenizer
  detail : Detail
  columns : List String

/-- A reader takes pieces from the front and returns the rest. -/
abbrev Reader (α : Type) := List Mark → Option (α × List Mark)

namespace Scope

def allColumns (s : Scope) : List Nat := List.range s.columns.length

def column? (s : Scope) (name : String) : Option Nat :=
  s.columns.findIdx? (sameName · name)

/-- Add the words of a string to a phrase; a star opens the last word. -/
def extend (s : Scope) (terms : List Term) (text : String) (starred : Bool) : List Term :=
  match (terms ++ (s.tokenizer.tokens text).map fun w => (⟨w, false⟩ : Term)).reverse with
  | [] => []
  | last :: before => ({ last with isOpen := starred } :: before).reverse

/-- The strings that a plus adds to a phrase. -/
def phraseTail (s : Scope) (terms : List Term) : List Mark → List Term × List Mark
  | .plus :: .string text _ :: .star :: rest => s.phraseTail (s.extend terms text true) rest
  | .plus :: .string text _ :: rest => s.phraseTail (s.extend terms text false) rest
  | rest => (terms, rest)

/-- A phrase takes two places, and four if a plus follows its first string. -/
def phrase? (s : Scope) (room : Nat) : Reader (List Term) := fun ms => do
  let (terms, rest) ← match ms with
    | .string text _ :: .star :: rest => some (s.extend [] text true, rest)
    | .string text _ :: rest => some (s.extend [] text false, rest)
    | _ => none
  if room < (if rest.head? = some .plus then 4 else 2) then none
  some (s.phraseTail terms rest)

def phrases? (s : Scope) (room : Nat) : Nat → Reader (List (List Term))
  | 0, _ => none
  | fuel + 1, ms =>
    match ms with
    | .string .. :: _ => do
      let (first, rest) ← s.phrase? room ms
      let (more, rest) ← s.phrases? room fuel rest
      some (first :: more, rest)
    | _ => some ([], ms)

/-- Whether a group can be looked for. If positions are not kept, only a single word can be. -/
def supports (s : Scope) (phrases : List Phrase) : Bool :=
  match s.detail, phrases with
  | .positions, _ => true
  | _, [p] => p.terms.length ≤ 1 && !p.atStart
  | _, _ => false

def groupOf? (s : Scope) (phrases : List Phrase) (distance : Nat) : Option SearchExpression :=
  let worded := phrases.filter (!·.terms.isEmpty)
  if worded.isEmpty then some .nothing
  else if s.supports worded then some (.group s.allColumns { phrases := worded, distance })
  else none

def distance? (text : String) : Option Nat :=
  if !text.isEmpty && text.toList.all Char.isDigit then text.toNat? else none

/-- A phrase, with or without a caret, or a `NEAR` group. Its parentheses take five places. -/
def nearby? (s : Scope) (room : Nat) : Reader SearchExpression
  | .caret :: rest => do
    let (terms, rest) ← s.phrase? (room - 1) rest
    some (← s.groupOf? [{ terms, atStart := true }] 10, rest)
  | .string name quoted :: .openParen :: rest => do
    if quoted ∨ name ≠ "NEAR" ∨ room < 5 then none
    let (first, rest) ← s.phrase? (room - 2) rest
    let (more, rest) ← s.phrases? (room - 3) (rest.length + 1) rest
    let phrases := (first :: more).map fun terms => { terms : Phrase }
    match rest with
    | .closeParen :: rest => some (← s.groupOf? phrases 10, rest)
    | .comma :: .string text false :: .closeParen :: rest => some (← s.groupOf? phrases (← distance? text), rest)
    | _ => none
  | ms => do
    let (terms, rest) ← s.phrase? room ms
    some (← s.groupOf? [{ terms }] 10, rest)

def columnList? (s : Scope) : Reader (List Nat)
  | .string name _ :: .closeBrace :: rest => do some ([← s.column? name], rest)
  | .string name _ :: rest => do
    let (more, rest) ← s.columnList? rest
    some ((← s.column? name) :: more, rest)
  | _ => none

def columnNames? (s : Scope) : Reader (List Nat)
  | .string name _ :: .colon :: rest => do some ([← s.column? name], rest)
  | .minus :: .string name _ :: .colon :: rest => do
    let i ← s.column? name
    some (s.allColumns.filter (· != i), rest)
  | .openBrace :: rest => do
    let (columns, rest) ← s.columnList? rest
    match rest with
    | .colon :: rest => some (columns, rest)
    | _ => none
  | .minus :: .openBrace :: rest => do
    let (columns, rest) ← s.columnList? rest
    match rest with
    | .colon :: rest => some (s.allColumns.filter (!columns.contains ·), rest)
    | _ => none
  | _ => none

/-- Columns in front of a colon, if words are kept by column. -/
def columnSet? (s : Scope) : Reader (List Nat) := if s.detail = .rows then fun _ => none else s.columnNames?

def startsColumns : List Mark → Bool
  | .string _ _ :: .colon :: _ | .minus :: _ | .openBrace :: _ => true
  | _ => false

/-- Whether another phrase stands beside the one before. -/
def startsNearby : List Mark → Bool
  | .string .. :: _ | .caret :: _ | .minus :: _ | .openBrace :: _ => true
  | _ => false

/-- One of the phrases side by side; it may name its columns, which take two places with their colon. -/
def beside? (s : Scope) (room : Nat) : Reader SearchExpression := fun ms =>
  if startsColumns ms then do
    let (columns, rest) ← s.columnSet? ms
    let (e, rest) ← s.nearby? (room - 2) rest
    some (e.restrict columns, rest)
  else s.nearby? room ms

def furtherBeside? (s : Scope) (room : Nat) : Nat → Reader (List SearchExpression)
  | 0, _ => none
  | fuel + 1, ms =>
    if startsNearby ms then do
      let (first, rest) ← s.beside? room ms
      let (more, rest) ← s.furtherBeside? room fuel rest
      some (first :: more, rest)
    else some ([], ms)

def isNothing : SearchExpression → Bool
  | .nothing => true
  | _ => false

def conjunction (parts : List SearchExpression) : SearchExpression :=
  match parts.filter (!isNothing ·) with
  | [] => .nothing
  | e :: rest => rest.foldl .and e

/-- An operand: something in parentheses, or phrases side by side. A parenthesis takes one place, and three
behind columns. -/
def operand? (s : Scope) (nested : Nat → Reader SearchExpression) (room : Nat) : Reader SearchExpression :=
  fun ms => do
    let (columns, taken, rest) ←
      if startsColumns ms then (s.columnSet? ms).map fun (columns, rest) => (columns, 3, rest)
      else some (s.allColumns, 1, ms)
    match rest with
    | .openParen :: rest =>
      let (e, rest) ← nested (room - taken) rest
      match rest with
      | .closeParen :: rest => some (e.restrict columns, rest)
      | _ => none
    | _ =>
      let (first, rest) ← s.beside? room ms
      let (more, rest) ← s.furtherBeside? (room - 1) (rest.length + 1) rest
      some (conjunction (first :: more), rest)

end Scope

/-- Further operands of one operator, joined from the left. -/
def joinMore (operand : Reader SearchExpression) (operator : Mark)
    (join : SearchExpression → SearchExpression → SearchExpression) :
    Nat → SearchExpression → Reader SearchExpression
  | 0, e, ms => some (e, ms)
  | fuel + 1, e, ms =>
    match ms with
    | m :: rest =>
      if m = operator then do
        let (next, rest) ← operand rest
        joinMore operand operator join fuel (join e next) rest
      else some (e, ms)
    | [] => some (e, [])

/-- Operands of one operator, joined from the left. Behind an operator two places are taken. -/
def joined (operand : Nat → Reader SearchExpression) (operator : Mark)
    (join : SearchExpression → SearchExpression → SearchExpression) (room : Nat) : Reader SearchExpression :=
  fun ms => do
    let (first, rest) ← operand room ms
    joinMore (operand (room - 2)) operator join rest.length first rest

/-- An expression with parentheses nested less than `depth` deep. -/
def expression? (s : Scope) : Nat → Nat → Reader SearchExpression
  | 0 => fun _ _ => none
  | depth + 1 =>
    joined (joined (joined (s.operand? (expression? s depth)) .not .not) .and .and) .or .or

def capacity : Nat := 99

/-- How high the tree of an expression may be. -/
def maxHeight : Nat := 256

end FullText

namespace SearchExpression

/-- The directives that a search text may hold instead of an expression. They match no row. -/
def isDirective (text : List Char) : Bool :=
  let word := ((text.dropWhile (· == ' ')).takeWhile (· != ' ')).map Char.toLower
  word == "reads".toList || word == "id".toList

/-- Read a search text for an index of this form and these columns. The text ends at a null character. -/
def read? (form : FullTextForm) (columns : List String) (text : String) : Option SearchExpression :=
  match text.toList.takeWhile (· != '\x00') with
  | '*' :: rest => if isDirective rest then some .nothing else none
  | cs => do
    let ms ← FullText.marks .none cs
    let scope : FullText.Scope := { tokenizer := form.tokenizer, detail := form.detail, columns := columns ++ form.furtherColumns }
    match ← FullText.expression? scope (FullText.capacity + 1) FullText.capacity ms with
    | (e, []) => if e.height ≤ FullText.maxHeight then some e else none
    | _ => none

end SearchExpression

end DocIndex
