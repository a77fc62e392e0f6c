import DocIndex.FullText.Tokenizer

/-! # Search expressions

A search expression is matched against the words of the columns of one row. The smallest expression
asks for phrases that lie close together in one column; `and`, `or` and `not` combine expressions.
-/

namespace DocIndex

namespace FullText

/-- A word looked for; an open one may go on. -/
structure Term where
  word : String
  isOpen : Bool := false
  deriving DecidableEq, Repr

namespace Term

def matchesWord (t : Term) (word : String) : Bool :=
  if t.isOpen then t.word.toList.isPrefixOf word.toList else t.word == word

end Term

structure Phrase where
  terms : List Term
  /-- The phrase has to begin its column. -/
  atStart : Bool := false
  deriving DecidableEq, Repr

namespace Phrase

def begins : List Term → List String → Bool
  | [], _ => true
  | _ :: _, [] => false
  | t :: ts, w :: ws => t.matchesWord w && begins ts ws

def positionsFrom (terms : List Term) (position : Nat) : List String → List Nat
  | [] => []
  | w :: ws =>
    if begins terms (w :: ws) then position :: positionsFrom terms (position + 1) ws
    else positionsFrom terms (position + 1) ws

def positions (p : Phrase) (words : List String) : List Nat :=
  let found := positionsFrom p.terms 0 words
  if p.atStart then found.filter (· == 0) else found

end Phrase

/-- Phrases that occur in one column, each ending at most `distance` words before the last one begins. -/
structure Group where
  phrases : List Phrase
  distance : Nat := 10
  deriving DecidableEq, Repr

namespace Group

def reaches (g : Group) (words : List String) (last : Nat) : Bool :=
  g.phrases.all fun p =>
    (p.positions words).any fun start => start ≤ last && last ≤ start + p.terms.length + g.distance

def occursIn (g : Group) (words : List String) : Bool :=
  (g.phrases.flatMap (·.positions words)).any (g.reaches words)

end Group

end FullText

open FullText

inductive SearchExpression where
  /-- Matches no row. -/
  | nothing
  /-- A group in one of the columns at these positions. -/
  | group (columns : List Nat) (group : Group)
  | and (left right : SearchExpression)
  | or (left right : SearchExpression)
  | not (left right : SearchExpression)
  deriving Repr

namespace SearchExpression

def holds (row : List (List String)) : SearchExpression → Bool
  | .nothing => false
  | .group columns g => columns.any fun i => g.occursIn (row.getD i [])
  | .and a b => a.holds row && b.holds row
  | .or a b => a.holds row || b.holds row
  | .not a b => a.holds row && !b.holds row

def isAnd : SearchExpression → Bool
  | .and .. => true
  | _ => false

def isOr : SearchExpression → Bool
  | .or .. => true
  | _ => false

/-- Height of the tree of an expression. What a chain of `and` joins stands side by side on one level,
and so does what a chain of `or` joins. -/
def height : SearchExpression → Nat
  | .nothing | .group .. => 0
  | .and a b => max (a.height + if a.isAnd then 0 else 1) (b.height + if b.isAnd then 0 else 1)
  | .or a b => max (a.height + if a.isOr then 0 else 1) (b.height + if b.isOr then 0 else 1)
  | .not a b => max a.height b.height + 1

def hasGroup : SearchExpression → Bool
  | .nothing => false
  | .group .. => true
  | .and a b | .or a b | .not a b => a.hasGroup || b.hasGroup

def restrict (columns : List Nat) : SearchExpression → SearchExpression
  | .nothing => .nothing
  | .group own g => .group (own.filter columns.contains) g
  | .and a b => .and (a.restrict columns) (b.restrict columns)
  | .or a b => .or (a.restrict columns) (b.restrict columns)
  | .not a b => .not (a.restrict columns) (b.restrict columns)

end SearchExpression

end DocIndex
