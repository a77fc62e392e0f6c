import DocIndex.Sql.Value

/-! # Statement fragments

A fragment is statement text with a value for every placeholder in it. Values never become part of
the text. A question mark between quotes is no placeholder; `Scan` reads text with that in mind, and a
doubled quote, which stands for one quote inside, closes and opens again.
-/

namespace DocIndex

namespace Scan

/-- The quote that is open after reading `cs`, if `q` was open before. -/
def state : Option Char → List Char → Option Char
  | q, [] => q
  | some q, c :: cs => state (if c = q then none else some q) cs
  | none, c :: cs => state (if c = '"' ∨ c = '\'' then some c else none) cs

/-- Placeholders in `cs`, if the quote `q` is open before. -/
def count : Option Char → List Char → Nat
  | _, [] => 0
  | some q, c :: cs => count (if c = q then none else some q) cs
  | none, c :: cs =>
    (if c = '?' then 1 else 0) + count (if c = '"' ∨ c = '\'' then some c else none) cs

end Scan

def placeholders (text : String) : Nat := Scan.count none text.toList

/-- The number of placeholders differs from the number of values. -/
structure FragmentMismatch where
  placeholders : Nat
  values : Nat
  deriving DecidableEq, Repr

/-- Statement text and the values of its placeholders in order. -/
structure Fragment where
  text : String
  values : List SqlValue
  deriving DecidableEq, Repr

namespace Fragment

def make (text : String) (values : List SqlValue) : Except FragmentMismatch Fragment :=
  if placeholders text = values.length then .ok ⟨text, values⟩
  else .error ⟨placeholders text, values.length⟩

def raw (text : String) : Except FragmentMismatch Fragment := make text []

instance : Append Fragment := ⟨fun a b => ⟨a.text ++ b.text, a.values ++ b.values⟩⟩

def intersperse (separator : Fragment) : List Fragment → Fragment
  | [] => ⟨"", []⟩
  | [f] => f
  | f :: rest => f ++ separator ++ intersperse separator rest

def join (parts : List Fragment) (separator : String) : Except FragmentMismatch Fragment := do
  .ok (intersperse (← raw separator) parts)

def wrap (f : Fragment) (before after : String) : Except FragmentMismatch Fragment := do
  let left ← raw before
  let right ← raw after
  .ok (left ++ f ++ right)

end Fragment

inductive Composition where
  | make (text : String) (values : List SqlValue)
  | raw (text : String)
  | append (first second : Composition)
  | join (parts : List Composition) (separator : String)
  | wrap (inner : Composition) (before after : String)

namespace Composition

mutual

def build : Composition → Except FragmentMismatch Fragment
  | .make text values => Fragment.make text values
  | .raw text => Fragment.raw text
  | .append first second => do
    let f ← build first
    let g ← build second
    .ok (f ++ g)
  | .join parts separator => do Fragment.join (← buildAll parts) separator
  | .wrap inner before after => do (← build inner).wrap before after

def buildAll : List Composition → Except FragmentMismatch (List Fragment)
  | [] => .ok []
  | c :: rest => do
    let f ← build c
    let fs ← buildAll rest
    .ok (f :: fs)

end

end Composition

/-- The characters of an identifier between double quotes, where a quote is written twice. -/
def doubleQuotes : List Char → List Char
  | [] => []
  | c :: cs => if c = '"' then '"' :: '"' :: doubleQuotes cs else c :: doubleQuotes cs

/-- The text up to the next quote that is not written twice, and what follows that quote. -/
def quoted? (quote : Char) : List Char → Option (List Char × List Char)
  | [] => none
  | [c] => if c = quote then some ([], []) else none
  | c :: d :: rest =>
    if c = quote then
      if d = quote then (quoted? quote rest).map fun (cs, after) => (c :: cs, after)
      else some ([], d :: rest)
    else (quoted? quote (d :: rest)).map fun (cs, after) => (c :: cs, after)

def quoteIdentifier (name : String) : String := String.ofList ('"' :: doubleQuotes name.toList ++ ['"'])

end DocIndex
