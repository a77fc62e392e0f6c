import DocIndex.FullText.Stem
import DocIndex.Text.Category

/-! # Tokenizers

A tokenizer cuts text into words: runs of word characters, or all runs of three characters. Upper-case
letters of ASCII are lowered. The words of one tokenizer may be replaced by their stems.
-/

namespace DocIndex

/-- Characters of words that need no quotes, in settings and in search texts. -/
def FullText.isBare (c : Char) : Bool := c.isAlphanum || c == '_' || 128 ≤ c.toNat || c.toNat == 26

/-- Which characters belong to words: those of some categories, and all beyond ASCII. -/
structure WordClass where
  categories : List CategoryPattern := [⟨'L', '*'⟩, ⟨'N', '*'⟩]
  /-- Characters that are classed one by one, the latest first. -/
  exceptions : List (Char × Bool) := []
  deriving DecidableEq, Repr

namespace WordClass

def contains (w : WordClass) (c : Char) : Bool :=
  match w.exceptions.find? (·.1 == c) with
  | some (_, belongs) => belongs
  | none => 128 ≤ c.toNat || c != '\x00' && w.categories.any (·.contains (asciiCategory c))

def except (w : WordClass) (characters : List Char) (belong : Bool) : WordClass :=
  { w with exceptions := (characters.map fun c => (c, belong)) ++ w.exceptions }

def runs (w : WordClass) : List Char → List (List Char)
  | [] => []
  | c :: rest =>
    if w.contains c then
      match rest, runs w rest with
      | d :: _, run :: more => if w.contains d then (c :: run) :: more else [c] :: run :: more
      | _, more => [c] :: more
    else runs w rest

end WordClass

inductive Tokenizer where
  /-- Runs of word characters in lower case. -/
  | words (letters : WordClass)
  /-- Every three characters in a row, up to a null character. -/
  | triples (lowered : Bool)
  /-- The stems of the words of another tokenizer. -/
  | stems (base : Tokenizer)
  deriving DecidableEq, Repr

namespace Tokenizer

def windows : List Char → List (List Char)
  | a :: b :: c :: rest => [a, b, c] :: windows (b :: c :: rest)
  | _ => []

def cut : Tokenizer → List Char → List (List Char)
  | .words w, cs => (w.runs cs).map (·.map Char.toLower)
  | .triples lowered, cs =>
    let cs := cs.takeWhile (· != '\x00')
    windows (if lowered then cs.map Char.toLower else cs)
  | .stems base, cs => (base.cut cs).map Stem.stem

def tokens (t : Tokenizer) (text : String) : List String := (t.cut text.toList).map String.ofList

end Tokenizer

end DocIndex
