/-! # Stemming of English words

The suffix rules of Porter's stemmer, on words of lower-case letters. A stem is measured by its
number of vowel-consonant groups; each step replaces the first listed suffix the word ends with, if
the stem in front of it is long enough. A `y` after a consonant counts as a vowel.
-/

namespace DocIndex

namespace Stem

/-- Vowel or not, for each letter; `afterConsonant` tells how the letter before was read. -/
def vowels (afterConsonant : Bool) : List Char → List Bool
  | [] => []
  | c :: rest =>
    let v := c == 'a' || c == 'e' || c == 'i' || c == 'o' || c == 'u' || (c == 'y' && afterConsonant)
    v :: vowels (!v) rest

def groups : List Bool → Nat
  | true :: false :: rest => groups (false :: rest) + 1
  | _ :: rest => groups rest
  | [] => 0

def measure (stem : List Char) : Nat := groups (vowels false stem)

def hasVowel : List Char → Bool
  | [] => false
  | c :: rest =>
    let plain (c : Char) : Bool := c == 'a' || c == 'e' || c == 'i' || c == 'o' || c == 'u'
    plain c || rest.any fun c => plain c || c == 'y'

/-- Consonant, vowel, consonant at the end, the last one not `w`, `x` or `y`. -/
def endsClosed (stem : List Char) : Bool :=
  match stem.getLast? with
  | none => false
  | some c =>
    c != 'w' && c != 'x' && c != 'y' &&
      match (vowels false stem).reverse with
      | false :: true :: false :: _ => true
      | _ => false

/-- What has to hold of the stem before a suffix is replaced. -/
inductive Condition where
  | measureAtLeast (n : Nat)
  /-- Measure at least two, and the stem ends in `s` or `t`. -/
  | longAfterST

def Condition.holds : Condition → List Char → Bool
  | .measureAtLeast n, stem => n ≤ measure stem
  | .longAfterST, stem =>
    (stem.getLast? == some 's' || stem.getLast? == some 't') && 2 ≤ measure stem

/-- Suffix, condition on the stem, replacement. -/
abbrev Rule := String × Condition × String

/-- The word without a suffix, if it is longer than the suffix and ends with it. -/
def stripSuffix? (suffix word : List Char) : Option (List Char) :=
  if suffix.length < word.length ∧ word.drop (word.length - suffix.length) = suffix then
    some (word.take (word.length - suffix.length))
  else none

/-- Apply the first rule whose suffix the word ends with. -/
def applyRules : List Rule → List Char → List Char
  | [], word => word
  | (suffix, condition, replacement) :: rest, word =>
    match stripSuffix? suffix.toList word with
    | some stem => if condition.holds stem then stem ++ replacement.toList else word
    | none => applyRules rest word

def long1 : Condition := .measureAtLeast 1
def long2 : Condition := .measureAtLeast 2

def plural (word : List Char) : List Char :=
  match word.reverse with
  | 's' :: 'e' :: 's' :: 's' :: _ :: _ => word.take (word.length - 2)
  | 's' :: 'e' :: 'i' :: _ :: _ => word.take (word.length - 2)
  | 's' :: 's' :: _ => word
  | 's' :: _ => word.take (word.length - 1)
  | _ => word

/-- Repair a stem that lost `ed` or `ing`: a final `e` comes back, a doubled consonant is undone. -/
def repair (stem : List Char) : List Char :=
  if (stripSuffix? ['a', 't'] stem).isSome ∨ (stripSuffix? ['b', 'l'] stem).isSome
      ∨ (stripSuffix? ['i', 'z'] stem).isSome then stem ++ ['e']
  else match stem.reverse with
    | c :: d :: _ =>
      let vowel := c == 'a' || c == 'e' || c == 'i' || c == 'o' || c == 'u'
      if !vowel && c != 'l' && c != 's' && c != 'z' && c == d then stem.take (stem.length - 1)
      else if measure stem = 1 ∧ endsClosed stem then stem ++ ['e']
      else stem
    | _ => if measure stem = 1 ∧ endsClosed stem then stem ++ ['e'] else stem

def participle (word : List Char) : List Char :=
  match stripSuffix? ['e', 'e', 'd'] word with
  | some stem => if 1 ≤ measure stem then stem ++ ['e', 'e'] else word
  | none =>
    match stripSuffix? ['e', 'd'] word with
    | some stem => if hasVowel stem then repair stem else word
    | none =>
      match stripSuffix? ['i', 'n', 'g'] word with
      | some stem => if hasVowel stem then repair stem else word
      | none => word

def finalY (word : List Char) : List Char :=
  if word.getLast? = some 'y' ∧ hasVowel word.dropLast then word.dropLast ++ ['i'] else word

def doubleSuffixes : List Rule :=
  [("ational", long1, "ate"), ("tional", long1, "tion"), ("enci", long1, "ence"), ("anci", long1, "ance"),
   ("izer", long1, "ize"), ("logi", long1, "log"), ("bli", long1, "ble"), ("alli", long1, "al"),
   ("entli", long1, "ent"), ("eli", long1, "e"), ("ousli", long1, "ous"), ("ization", long1, "ize"),
   ("ation", long1, "ate"), ("ator", long1, "ate"), ("alism", long1, "al"), ("iveness", long1, "ive"),
   ("fulness", long1, "ful"), ("ousness", long1, "ous"), ("aliti", long1, "al"), ("iviti", long1, "ive"),
   ("biliti", long1, "ble")]

def shortSuffixes : List Rule :=
  [("icate", long1, "ic"), ("ative", long1, ""), ("alize", long1, "al"), ("iciti", long1, "ic"),
   ("ical", long1, "ic"), ("ful", long1, ""), ("ness", long1, "")]

def lastSuffixes : List Rule :=
  [("al", long2, ""), ("ance", long2, ""), ("ence", long2, ""), ("er", long2, ""), ("ic", long2, ""),
   ("able", long2, ""), ("ible", long2, ""), ("ant", long2, ""), ("ement", long2, ""), ("ment", long2, ""),
   ("ent", long2, ""), ("ion", .longAfterST, ""), ("ou", long2, ""), ("ism", long2, ""), ("ate", long2, ""),
   ("iti", long2, ""), ("ous", long2, ""), ("ive", long2, ""), ("ize", long2, "")]

/-- Drop a final `e` after a long stem, or after a short one that is not closed. -/
def finalE (word : List Char) : List Char :=
  if word.getLast? = some 'e' then
    let stem := word.dropLast
    if 2 ≤ measure stem ∨ (measure stem = 1 ∧ !endsClosed stem) then stem else word
  else word

def finalL (word : List Char) : List Char :=
  match word.reverse with
  | 'l' :: 'l' :: _ => if 2 ≤ measure word.dropLast then word.dropLast else word
  | _ => word

/-- The stem of a word; words of fewer than 3 or more than 64 letters are left alone. -/
def stem (word : List Char) : List Char :=
  if word.length < 3 ∨ 64 < word.length then word
  else
    finalL (finalE (applyRules lastSuffixes (applyRules shortSuffixes (applyRules doubleSuffixes
      (finalY (participle (plural word)))))))

end Stem

end DocIndex
