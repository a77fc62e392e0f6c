import DocIndex.FullText.Form
import DocIndex.Index.Spec

/-! # Full-text tables of valid settings

A valid tokenizer setting has no quote in it, so it is the whole value of one option and the declaration
says nothing else. The table that it declares keeps its texts, and its rows can be read.
-/

namespace DocIndex

theorem mem_splitSpaces {c : Char} {cs : List Char} (hc : c ∈ cs) :
    c = ' ' ∨ ∃ word ∈ splitSpaces cs, c ∈ word := by
  induction cs with
  | nil => simp at hc
  | cons d rest ih =>
    unfold splitSpaces
    by_cases hd : d = ' '
    · rw [if_pos hd]
      rcases List.mem_cons.mp hc with rfl | hc
      · exact Or.inl hd
      · refine (ih hc).imp_right ?_
        rintro ⟨word, hword, hmem⟩
        exact ⟨word, List.mem_cons_of_mem _ hword, hmem⟩
    · rw [if_neg hd]
      cases hsplit : splitSpaces rest with
      | nil =>
        rcases List.mem_cons.mp hc with rfl | hc
        · exact Or.inr ⟨[c], by simp, by simp⟩
        · exact Or.inl ((ih hc).resolve_right (by simp [hsplit]))
      | cons piece pieces =>
        rcases List.mem_cons.mp hc with rfl | hc
        · exact Or.inr ⟨c :: piece, by simp, by simp⟩
        · refine (ih hc).imp_right ?_
          rw [hsplit]
          rintro ⟨word, hword, hmem⟩
          rcases List.mem_cons.mp hword with rfl | hword
          · exact ⟨d :: word, List.mem_cons_self, List.mem_cons_of_mem _ hmem⟩
          · exact ⟨word, List.mem_cons_of_mem _ hword, hmem⟩

theorem isNameChar_of_mem_setting {setting : String} (h : isTokenizerSetting setting = true) {c : Char}
    (hc : c ∈ setting.toList) : c = ' ' ∨ isNameChar c = true := by
  refine (mem_splitSpaces hc).imp_right ?_
  rintro ⟨word, hword, hmem⟩
  have hgood := List.all_eq_true.mp h word hword
  rw [Bool.and_eq_true] at hgood
  exact List.all_eq_true.mp hgood.2 c hmem

theorem ne_of_mem_setting {setting : String} (h : isTokenizerSetting setting = true) {c d : Char}
    (hc : c ∈ setting.toList) (hd : d ≠ ' ') (hname : isNameChar d = false) : c ≠ d := by
  rintro rfl
  rcases isNameChar_of_mem_setting h hc with heq | heq
  · exact hd heq
  · rw [hname] at heq
    exact absurd heq (by decide)

theorem quoted?_append {quote : Char} {cs : List Char} (h : ∀ c ∈ cs, c ≠ quote) {d : Char} (hd : d ≠ quote)
    (rest : List Char) : quoted? quote (cs ++ quote :: d :: rest) = some (cs, d :: rest) := by
  induction cs with
  | nil => simp [quoted?, hd]
  | cons c more ih =>
    have hc : c ≠ quote := h c List.mem_cons_self
    have hrest := ih fun e he => h e (List.mem_cons_of_mem _ he)
    cases more with
    | nil => simp [quoted?, hc, hd]
    | cons e more =>
      simp only [List.cons_append] at hrest ⊢
      rw [quoted?, if_neg hc, hrest]
      rfl

namespace TableArgument

/-- The option that chooses a tokenizer, with the parenthesis that ends the declaration. -/
def tokenizeOption (setting : String) : String := "tokenize = '" ++ setting ++ "')"

theorem toList_tokenizeOption (setting : String) : (tokenizeOption setting).toList =
    't' :: 'o' :: 'k' :: 'e' :: 'n' :: 'i' :: 'z' :: 'e' :: ' ' :: '=' :: ' ' :: '\'' ::
      (setting.toList ++ ['\'', ')']) := by
  simp only [tokenizeOption, String.toList_append, List.append_assoc]
  rfl

variable {setting : String}

theorem readFrom?_piece {c : Char} {cs rest : List Char} {p : Piece} (hcomma : c ≠ ',') (hclose : c ≠ ')')
    (hp : piece? (c :: cs) = some (p, rest)) (fuel : Nat) (pieces : List Piece) :
    readFrom? (fuel + 1) pieces (c :: cs) = readFrom? fuel (p :: pieces) rest := by
  rw [readFrom?]
  · rw [hp]
    rfl
  · rintro _ ⟨⟩
    exact hcomma rfl
  · rintro _ ⟨⟩
    exact hclose rfl

theorem piece?_space {c : Char} (hc : isSpace c = false) (rest : List Char) :
    piece? (' ' :: c :: rest) = some (.spaces, c :: rest) := by
  have hword : (' ' :: c :: rest).takeWhile isSpace = [' '] := by
    simp [hc, show isSpace ' ' = true from rfl]
  have hafter : (c :: rest).dropWhile isSpace = c :: rest := List.dropWhile_cons_of_neg (by simp [hc])
  simp only [piece?, comment?, hword]
  simp [isBlank, hafter]

theorem readFrom?_tokenizeOption (h : ∀ c ∈ setting.toList, c ≠ '\'') (fuel : Nat) :
    readFrom? (fuel + 6) [] (tokenizeOption setting).toList = some [.option "tokenize" setting] := by
  have hname : piece? (tokenizeOption setting).toList =
      some (.word "tokenize" false, ' ' :: '=' :: ' ' :: '\'' :: (setting.toList ++ ['\'', ')'])) := by
    rw [toList_tokenizeOption]
    rfl
  have hvalue : piece? ('\'' :: (setting.toList ++ ['\'', ')'])) = some (.word setting true, [')']) := by
    have hquoted := quoted?_append h (show ')' ≠ '\'' by decide) []
    simp [piece?, comment?, isBlank, hquoted]
  have hpieces : ofPieces? [.word setting true, .spaces, .equals, .spaces, .word "tokenize" false] =
      some (some (.option "tokenize" setting)) := rfl
  rw [toList_tokenizeOption] at hname ⊢
  rw [readFrom?_piece (by decide) (by decide) hname,
    readFrom?_piece (by decide) (by decide) (piece?_space rfl _),
    readFrom?_piece (by decide) (by decide) (show piece? ('=' :: _) = some (.equals, _) from rfl),
    readFrom?_piece (by decide) (by decide) (piece?_space rfl _),
    readFrom?_piece (by decide) (by decide) hvalue, readFrom?, hpieces]
  rfl

theorem readAll?_tokenizeOption (h : isTokenizerSetting setting = true) :
    readAll? (tokenizeOption setting) = some [.option "tokenize" setting] := by
  have hplain : ∀ c ∈ setting.toList, (c != '\x00') = true := fun c hc =>
    bne_iff_ne.mpr (ne_of_mem_setting h hc (by decide) (by decide))
  have htake : (tokenizeOption setting).toList.takeWhile (· != '\x00') = (tokenizeOption setting).toList := by
    rw [toList_tokenizeOption]
    simp only [List.takeWhile_cons, List.takeWhile_append_of_pos hplain]
    rfl
  have hquote : ∀ c ∈ setting.toList, c ≠ '\'' := fun c hc => ne_of_mem_setting h hc (by decide) (by decide)
  have hlength : (tokenizeOption setting).toList.length + 1 = setting.toList.length + 9 + 6 := by
    rw [toList_tokenizeOption]
    simp only [List.length_cons, List.length_append, List.length_nil]
  simp only [readAll?, htake, hlength]
  exact readFrom?_tokenizeOption hquote _

end TableArgument

namespace FullTextForm

/-- Texts are kept with the rows, and rows have the name by which they are read. -/
def KeepsTexts (f : FullTextForm) : Prop := f.store = .own ∧ f.rowName = "rowid"

theorem keepsTexts_of_options {setting : String} {form : FullTextForm}
    (h : ofOptions? [(.tokenize, setting)] = some form) : form.KeepsTexts ∧ form.keepsSizes = true := by
  have hstore : ∀ keepsSizes, store? [(.tokenize, setting)] keepsSizes = some .own := fun _ => rfl
  have hname : single? [(.tokenize, setting)] .contentRowid = some none := rfl
  have hsizes : last? [(.tokenize, setting)] .columnSizes FullText.flag? true = some true := rfl
  have hvalue : single? [(.tokenize, setting)] .tokenize = some (some setting) := rfl
  unfold ofOptions? at h
  simp only [hstore, hname, hsizes, hvalue, Option.bind_eq_bind, Option.bind_none, Option.bind_some, Option.bind_eq_some_iff,
    Option.ite_none_left_eq_some, Option.some.injEq] at h
  obtain ⟨_, _, _, _, _, _, _, _, _, _, _, _, rfl⟩ := h
  exact ⟨⟨rfl, rfl⟩, rfl⟩

/-- A declaration that chooses a tokenizer and nothing else keeps the texts and the numbers of their words. -/
theorem keepsTexts_of_tokenize {table setting : String} {columns : List String} {form : FullTextForm}
    (h : ofArguments? table columns [.option "tokenize" setting] = some form) :
    form.KeepsTexts ∧ form.keepsSizes = true := by
  have hname : FullText.FormOption.ofName? "tokenize" = some .tokenize := by decide
  simp only [ofArguments?, columns?, options?, hname, Option.bind_eq_bind, Option.bind_none, Option.bind_some,
    Option.bind_eq_some_iff, Option.ite_none_left_eq_some, Option.some.injEq] at h
  obtain ⟨_, _, options, hoptions, rfl⟩ := h
  obtain ⟨htexts, hsizes⟩ := keepsTexts_of_options hoptions
  exact ⟨htexts, hsizes⟩

end FullTextForm

end DocIndex
