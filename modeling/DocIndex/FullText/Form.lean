import DocIndex.FullText.Tokenizer.Setting
import DocIndex.Sql.Arguments

/-! # Forms of full-text tables

A full-text table is declared by the columns of its index and by arguments, which name the tokenizer and may
add options and columns. Options tell what the table keeps: how closely the places of words, whether the
texts themselves, and whether the number of words in each. What it keeps is divided into parts, and each
part is a table of its own.
-/

namespace DocIndex

namespace FullText

/-- How closely the place of a word is kept. -/
inductive Detail where
  | positions
  | columns
  | rows
  deriving DecidableEq, Repr

/-- Where the texts of the rows are kept. -/
inductive TextStore where
  | own
  /-- Nowhere, so that a row gives back nulls; only the columns that are not searched may be kept. -/
  | nowhere (keepsUnsearched erasable : Bool)
  /-- In a table of another name. -/
  | elsewhere
  deriving DecidableEq, Repr

inductive Part where
  | data
  | idx
  | content
  | docsize
  | config
  deriving DecidableEq, Repr

namespace Part

def suffix : Part → String
  | .data => "_data"
  | .idx => "_idx"
  | .content => "_content"
  | .docsize => "_docsize"
  | .config => "_config"

end Part

inductive FormOption where
  /-- Word beginnings of these lengths are found faster. -/
  | beginnings
  | tokenize
  | content
  | contentlessDelete
  | contentlessUnindexed
  | contentRowid
  | columnSizes
  | locale
  | detail
  | tokenData
  deriving DecidableEq, Repr

namespace FormOption

def name : FormOption → String
  | .beginnings => "prefix"
  | .tokenize => "tokenize"
  | .content => "content"
  | .contentlessDelete => "contentless_delete"
  | .contentlessUnindexed => "contentless_unindexed"
  | .contentRowid => "content_rowid"
  | .columnSizes => "columnsize"
  | .locale => "locale"
  | .detail => "detail"
  | .tokenData => "tokendata"

/-- Of several that a beginning fits the first is meant. -/
def all : List FormOption :=
  [.beginnings, .tokenize, .content, .contentlessDelete, .contentlessUnindexed, .contentRowid, .columnSizes, .locale,
    .detail, .tokenData]

def ofName? (name : String) : Option FormOption :=
  all.find? fun o => (foldCase name).toList.isPrefixOf o.name.toList

end FormOption

/-- How many lengths of word beginnings can be given. -/
def maxBeginnings : Nat := 31

/-- The lengths of word beginnings: numbers below 1000 with blanks or a comma between them; `fuel` bounds how
many there are. -/
def lengths? : Nat → (first : Bool) → List Char → Option (List Nat)
  | 0, _, _ => none
  | fuel + 1, first, cs =>
    let read (cs : List Char) : Option (List Nat) := do
      let digits := cs.takeWhile Char.isDigit
      let n ← (String.ofList digits).toNat?
      if n = 0 ∨ 1000 ≤ n then none
      some (n :: (← lengths? fuel false (cs.drop digits.length)))
    match Tokenizer.skipBlanks cs, first with
    | [], _ => some []
    | ',' :: rest, false => read (Tokenizer.skipBlanks rest)
    | cs, _ => read cs

/-- The detail whose name begins like this, if there is only one. -/
def Detail.ofName? (name : String) : Option Detail :=
  let named := [("none", Detail.rows), ("full", .positions), ("columns", .columns)]
  match named.filter fun d => (foldCase name).toList.isPrefixOf d.1.toList with
  | [(_, detail)] => some detail
  | _ => none

def flag? (value : String) : Option Bool :=
  if value = "0" then some false else if value = "1" then some true else none

end FullText

open FullText

/-- How a full-text table is kept. -/
structure FullTextForm where
  tokenizer : Tokenizer := .words {}
  /-- Columns after those of the index. They can be searched but hold nothing. -/
  furtherColumns : List String := []
  detail : Detail := .positions
  store : TextStore := .own
  /-- Whether the number of words in each text is kept. -/
  keepsSizes : Bool := true
  /-- The name under which rows are looked up where the texts are kept. -/
  rowName : String := "rowid"
  deriving DecidableEq, Repr

namespace FullTextForm

def parts (f : FullTextForm) : List Part :=
  let content := match f.store with
    | .own | .nowhere true _ => [Part.content]
    | _ => []
  [.data, .idx] ++ content ++ (if f.keepsSizes then [.docsize] else []) ++ [.config]

def rowNames : List String := ["rowid", "oid", "_rowid_", "id"]

/-- The part that all rows are read from, if they can be read at all. -/
def readPart? (f : FullTextForm) : Option Part :=
  if rowNames.any (sameName f.rowName) then
    match f.store with
    | .own | .nowhere true _ => some .content
    | .nowhere false _ => if f.keepsSizes then some .docsize else none
    | .elsewhere => none
  else none

def valuesOf (options : List (FormOption × String)) (option : FormOption) : List String :=
  (options.filter (·.1 == option)).map (·.2)

def single? (options : List (FormOption × String)) (option : FormOption) : Option (Option String) :=
  match valuesOf options option with
  | [] => some none
  | [value] => some (some value)
  | _ => none

/-- The last value of an option, or its default. Each value has to be right. -/
def last? {α : Type} (options : List (FormOption × String)) (option : FormOption) (read : String → Option α)
    (default : α) : Option α := do
  some (((← (valuesOf options option).mapM read).getLast?).getD default)

/-- Where texts are kept. Rows can be erased, and unsearched columns kept, only where texts are not. -/
def store? (options : List (FormOption × String)) (keepsSizes : Bool) : Option TextStore := do
  let erasable ← last? options .contentlessDelete flag? false
  let keepsUnsearched ← last? options .contentlessUnindexed flag? false
  match ← single? options .content with
  | some "" => if erasable && !keepsSizes then none else some (.nowhere keepsUnsearched erasable)
  | content? => if erasable || keepsUnsearched then none else some (if content?.isSome then .elsewhere else .own)

def ofOptions? (options : List (FormOption × String)) : Option FullTextForm := do
  let lengths ← (valuesOf options .beginnings).mapM fun v => lengths? (v.length + 1) true v.toList
  if maxBeginnings < lengths.flatten.length then none
  let tokenizer ← match ← single? options .tokenize with
    | some setting => Tokenizer.ofSetting? setting
    | none => some (.words {})
  let keepsSizes ← last? options .columnSizes flag? true
  let store ← store? options keepsSizes
  let rowName := (← single? options .contentRowid).getD "rowid"
  let _ ← last? options .locale flag? false
  let _ ← last? options .tokenData flag? false
  some { tokenizer, detail := ← last? options .detail Detail.ofName? .positions, store, keepsSizes, rowName }

def options? : List TableArgument → Option (List (FormOption × String))
  | [] => some []
  | .column .. :: rest => options? rest
  | .option name value :: rest => do
    let option ← FormOption.ofName? name
    some ((option, value) :: (← options? rest))

/-- The columns among some arguments. Nothing but `unindexed` can be said of a column. -/
def columns? : List TableArgument → Option (List String)
  | [] => some []
  | .option .. :: rest => columns? rest
  | .column name extra? :: rest => do
    if !extra?.all (sameName "unindexed") then none
    some (name :: (← columns? rest))

def areDistinct (taken : List String) : List String → Bool
  | [] => true
  | name :: rest => !taken.any (sameName name) && areDistinct (name :: taken) rest

/-- The most columns and options that a table can be declared with. -/
def maxArguments : Nat := 1994

/-- The form of a table with this name and these columns that some arguments describe. -/
def ofArguments? (table : String) (columns : List String) (arguments : List TableArgument) : Option FullTextForm := do
  if maxArguments < columns.length + arguments.length then none
  let furtherColumns ← columns? arguments
  if !areDistinct ("rank" :: "rowid" :: table :: columns) furtherColumns then none
  some { (← ofOptions? (← options? arguments)) with furtherColumns }

end FullTextForm

end DocIndex
