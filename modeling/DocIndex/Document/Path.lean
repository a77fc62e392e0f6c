/-! # Field paths

A field is addressed by a dotted path, one segment for each level of nesting. A path that may be
indexed or queried has at least one segment, and no segment is empty or starts with a dollar sign.
-/

namespace DocIndex

namespace Path

/-- The pieces of a text between dots; a text without dots is one piece. -/
def splitDots : List Char → List (List Char)
  | [] => [[]]
  | c :: rest =>
    if c = '.' then [] :: splitDots rest
    else match splitDots rest with
      | [] => [[c]]
      | piece :: pieces => (c :: piece) :: pieces

theorem splitDots_ne_nil (cs : List Char) : splitDots cs ≠ [] := by
  cases cs with
  | nil => simp [splitDots]
  | cons c rest =>
    simp only [splitDots]
    split
    · simp
    · split <;> simp

def segments (path : String) : List String := (splitDots path.toList).map String.ofList

def isValid (path : String) : Bool :=
  !path.isEmpty && (splitDots path.toList).all fun s => !s.isEmpty && s.head? != some '$'

end Path

end DocIndex
