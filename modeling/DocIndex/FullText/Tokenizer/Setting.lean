import DocIndex.FullText.Tokenizer
import DocIndex.Sql.Fragment
import DocIndex.Text.Case

/-! # Tokenizer settings

A tokenizer is chosen by a setting of words: its name and, after that, pairs of an option and its value.
A word is bare, made of letters, digits and the like, or stands in single quotes. No word at all chooses
the tokenizer of words made of letters and digits; after `porter` comes the tokenizer whose words are
replaced by their stems.
-/

namespace DocIndex

namespace Tokenizer

def skipBlanks (cs : List Char) : List Char := cs.dropWhile (· == ' ')

/-- The words of a setting; `fuel` bounds their number. -/
def settingWords? : Nat → List Char → Option (List (List Char))
  | _, [] => some []
  | 0, _ => none
  | fuel + 1, cs => do
    let (word, rest) ← match skipBlanks cs with
      | '\'' :: rest => quoted? '\'' rest
      | rest =>
        let word := rest.takeWhile FullText.isBare
        if word.isEmpty then none else some (word, rest.drop word.length)
    some (word :: (← settingWords? fuel (skipBlanks rest)))

def pairs? : List (List Char) → Option (List (String × List Char))
  | [] => some []
  | [_] => none
  | option :: value :: rest => (pairs? rest).map ((String.ofList option, value) :: ·)

/-- Apply options to word characters. Diacritics lie beyond ASCII, so how they are removed changes no
word. With `categories`, the setting of that name was read before. -/
def withOptions (withCategories : Bool) : WordClass → List (String × List Char) → Option WordClass
  | w, [] => some w
  | w, (option, value) :: rest =>
    if sameName option "tokenchars" then withOptions withCategories (w.except value true) rest
    else if sameName option "separators" then withOptions withCategories (w.except value false) rest
    else if withCategories ∧ sameName option "categories" then withOptions withCategories w rest
    else if withCategories ∧ sameName option "remove_diacritics" ∧ (value = ['0'] ∨ value = ['1'] ∨ value = ['2']) then
      withOptions withCategories w rest
    else none

def fields : List Char → List (List Char)
  | [] => [[]]
  | c :: rest =>
    if c = ' ' ∨ c = '\t' then [] :: fields rest
    else
      match fields rest with
      | word :: more => (c :: word) :: more
      | [] => [[c]]

/-- Words of categories. Of several settings of the categories the last one counts. -/
def wordsByCategory? (options : List (String × List Char)) : Option Tokenizer := do
  let categories ← match options.reverse.find? (sameName ·.1 "categories") with
    | some (_, value) => CategoryPattern.ofWords? (fields value)
    | none => some ({} : WordClass).categories
  (withOptions true { categories } options).map .words

/-- Options of the tokenizer of three characters: whether case counts, and whether diacritics are
removed, which needs that it does not. -/
def triples? (keepCase plain : Bool) : List (String × List Char) → Option Tokenizer
  | [] => if keepCase && plain then none else some (.triples (!keepCase))
  | (option, value) :: rest =>
    if sameName option "case_sensitive" ∧ (value = ['0'] ∨ value = ['1']) then triples? (value == ['1']) plain rest
    else if sameName option "remove_diacritics" ∧ (value = ['0'] ∨ value = ['1'] ∨ value = ['2']) then
      triples? keepCase (value != ['0']) rest
    else none

def ofWords? : List (List Char) → Option Tokenizer
  | [] => some (.words {})
  | name :: rest =>
    let name := String.ofList name
    if sameName name "porter" then (ofWords? rest).map .stems
    else if sameName name "unicode61" then (pairs? rest).bind wordsByCategory?
    else if sameName name "ascii" then (pairs? rest).bind fun options => (withOptions false {} options).map .words
    else if sameName name "trigram" then (pairs? rest).bind (triples? false false)
    else none

def ofSetting? (setting : String) : Option Tokenizer := do
  let cs := setting.toList
  ofWords? (← settingWords? (cs.length + 1) cs)

end Tokenizer

end DocIndex
