/-! # General categories of ASCII

Every character has a general category of two letters, the first for its class: `Lu` and `Ll` are
letters, `Nd` digits, `P.` punctuation, `S.` symbols, `Zs` the space and `Cc` controls. A pattern names
one category, or with a star a whole class.
-/

namespace DocIndex

structure Category where
  major : Char
  minor : Char
  deriving DecidableEq, Repr

def asciiCategory (c : Char) : Category :=
  if c.toNat < 32 ∨ c.toNat = 127 then ⟨'C', 'c'⟩
  else if c = ' ' then ⟨'Z', 's'⟩
  else if c.isUpper then ⟨'L', 'u'⟩
  else if c.isLower then ⟨'L', 'l'⟩
  else if c.isDigit then ⟨'N', 'd'⟩
  else if c = '_' then ⟨'P', 'c'⟩
  else if c = '-' then ⟨'P', 'd'⟩
  else if c = '(' ∨ c = '[' ∨ c = '\x7b' then ⟨'P', 's'⟩
  else if c = ')' ∨ c = ']' ∨ c = '\x7d' then ⟨'P', 'e'⟩
  else if c = '$' then ⟨'S', 'c'⟩
  else if c = '^' ∨ c.toNat = 0x60 then ⟨'S', 'k'⟩
  else if "+<=>|~".toList.contains c then ⟨'S', 'm'⟩
  else ⟨'P', 'o'⟩

/-- One category, or a whole class if the second letter is a star. -/
structure CategoryPattern where
  major : Char
  minor : Char
  deriving DecidableEq, Repr

namespace CategoryPattern

def contains (p : CategoryPattern) (c : Category) : Bool :=
  p.major == c.major && (p.minor == '*' || p.minor == c.minor)

/-- The second letters that go with a first one; `LC` is the class of letters with case and holds no
category of its own. -/
def minors? (major : Char) : Option (List Char) :=
  match major with
  | 'C' => some ['c', 'f', 'n', 's', 'o', '*']
  | 'L' => some ['l', 'm', 'o', 't', 'u', 'C', '*']
  | 'M' => some ['c', 'e', 'n', '*']
  | 'N' => some ['d', 'l', 'o', '*']
  | 'P' => some ['c', 'd', 'e', 'f', 'i', 'o', 's', '*']
  | 'S' => some ['c', 'k', 'm', 'o', '*']
  | 'Z' => some ['l', 'p', 's', '*']
  | _ => none

/-- The patterns that words name by their first two letters. An empty word names none; in any other the
first letter has to be that of a class, and the second that of a category in it. -/
def ofWords? : List (List Char) → Option (List CategoryPattern)
  | [] => some []
  | [] :: rest => ofWords? rest
  | [_] :: _ => none
  | (major :: minor :: _) :: rest => do
    if !(← minors? major).contains minor then none
    some (⟨major, minor⟩ :: (← ofWords? rest))

end CategoryPattern

end DocIndex
