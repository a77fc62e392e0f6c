import DocIndex.Database
import DocIndex.Proofs.FullText.Declared
import DocIndex.Proofs.Sql.Placeholders

/-! # Tokenizer settings that can be applied

A setting that passes its check is read as the words between its spaces, so nothing is wrong with how it is written. Its
words may still name no tokenizer, or give a tokenizer options that it has not. Then the declaration of the table means
nothing, though the check had nothing to say.
-/

namespace DocIndex

/-! ## Words of a setting -/

/-- A word between the spaces of a setting. -/
def IsSettingWord (word : List Char) : Prop := word ≠ [] ∧ ∀ c ∈ word, isNameChar c = true

theorem isTokenizerSetting_iff {setting : String} :
    isTokenizerSetting setting = true ↔ ∀ word ∈ splitSpaces setting.toList, IsSettingWord word := by
  simp [isTokenizerSetting, IsSettingWord]

theorem splitSpaces_ne_nil (cs : List Char) : splitSpaces cs ≠ [] := by
  cases cs with
  | nil => exact List.cons_ne_nil _ _
  | cons c rest =>
    unfold splitSpaces
    split
    · exact List.cons_ne_nil _ _
    · split
      · exact List.cons_ne_nil _ _
      · exact List.cons_ne_nil _ _

theorem splitSpaces_eq_cons {cs word : List Char} {more : List (List Char)} (h : splitSpaces cs = word :: more) :
    (cs = word ∧ more = []) ∨ ∃ rest, cs = word ++ ' ' :: rest ∧ splitSpaces rest = more := by
  induction cs generalizing word with
  | nil =>
    obtain ⟨rfl, rfl⟩ := List.cons.inj h
    exact Or.inl ⟨rfl, rfl⟩
  | cons c rest ih =>
    unfold splitSpaces at h
    by_cases hc : c = ' '
    · rw [if_pos hc] at h
      obtain ⟨rfl, hmore⟩ := List.cons.inj h
      exact Or.inr ⟨rest, by rw [hc]; rfl, hmore⟩
    · rw [if_neg hc] at h
      cases hsplit : splitSpaces rest with
      | nil => exact absurd hsplit (splitSpaces_ne_nil rest)
      | cons piece pieces =>
        rw [hsplit] at h
        obtain ⟨rfl, rfl⟩ := List.cons.inj h
        rcases ih hsplit with ⟨rfl, hnil⟩ | ⟨after, rfl, hafter⟩
        · exact Or.inl ⟨rfl, hnil⟩
        · exact Or.inr ⟨after, rfl, hafter⟩

namespace Tokenizer

theorem isBare_of_isNameChar {c : Char} (h : isNameChar c = true) : FullText.isBare c = true := by
  unfold isNameChar at h
  unfold FullText.isBare
  rw [h]
  rfl

theorem skipBlanks_cons {c : Char} (hc : isNameChar c = true) (rest : List Char) :
    skipBlanks (c :: rest) = c :: rest := by
  refine List.dropWhile_cons_of_neg ?_
  rw [beq_iff_eq]
  rintro rfl
  exact absurd hc (by decide)

theorem settingWords?_word {word rest : List Char} (hword : IsSettingWord word)
    (hrest : ∀ c ∈ rest.head?, FullText.isBare c = false) (fuel : Nat) :
    settingWords? (fuel + 1) (word ++ rest) = (settingWords? fuel (skipBlanks rest)).map (word :: ·) := by
  obtain ⟨hne, hchars⟩ := hword
  have hbare : ∀ c ∈ word, FullText.isBare c = true := fun c hc => isBare_of_isNameChar (hchars c hc)
  have hend : rest.takeWhile FullText.isBare = [] := by
    cases rest with
    | nil => rfl
    | cons d more => exact List.takeWhile_cons_of_neg (by simp [hrest d rfl])
  have htake : (word ++ rest).takeWhile FullText.isBare = word := by
    rw [List.takeWhile_append_of_pos hbare, hend, List.append_nil]
  cases word with
  | nil => exact absurd rfl hne
  | cons c more =>
    have hc : isNameChar c = true := hchars c List.mem_cons_self
    have hquote : c ≠ '\'' := by
      rintro rfl
      exact absurd hc (by decide)
    rw [List.cons_append] at htake ⊢
    conv_lhs => unfold settingWords?
    simp only [skipBlanks_cons hc]
    split
    · rename_i after heq
      exact absurd (List.cons.inj heq).1 hquote
    · have hdrop : (c :: (more ++ rest)).drop (c :: more).length = rest := List.drop_left
      simp only [htake, hdrop, List.isEmpty_cons, Bool.false_eq_true, if_false, Option.bind_eq_bind, Option.bind_some]
      cases settingWords? fuel (skipBlanks rest) with
      | none => rfl
      | some words => rfl

theorem begins_with_word {cs : List Char} (h : ∀ word ∈ splitSpaces cs, IsSettingWord word) :
    ∃ c rest, cs = c :: rest ∧ isNameChar c = true := by
  cases cs with
  | nil => exact absurd rfl (h [] (List.mem_singleton_self [])).1
  | cons c rest =>
    refine ⟨c, rest, rfl, ?_⟩
    cases hsplit : splitSpaces (c :: rest) with
    | nil => exact absurd hsplit (splitSpaces_ne_nil _)
    | cons word more =>
      obtain ⟨hne, hchars⟩ := h word (by rw [hsplit]; exact List.mem_cons_self)
      have hword : ∃ after, c :: rest = word ++ after := by
        rcases splitSpaces_eq_cons hsplit with ⟨hwhole, _⟩ | ⟨after, hafter, _⟩
        · exact ⟨[], by rw [hwhole, List.append_nil]⟩
        · exact ⟨_, hafter⟩
      obtain ⟨after, hafter⟩ := hword
      cases word with
      | nil => exact absurd rfl hne
      | cons d tail =>
        rw [(List.cons.inj hafter).1]
        exact hchars d List.mem_cons_self

theorem settingWords?_splitSpaces {cs : List Char} (h : ∀ word ∈ splitSpaces cs, IsSettingWord word) {fuel : Nat}
    (hfuel : cs.length < fuel) : settingWords? fuel cs = some (splitSpaces cs) := by
  generalize hsplit : splitSpaces cs = words at h
  induction words generalizing cs fuel with
  | nil => exact absurd hsplit (splitSpaces_ne_nil cs)
  | cons word more ih =>
    have hword := h word List.mem_cons_self
    have hmore : ∀ w ∈ more, IsSettingWord w := fun w hw => h w (List.mem_cons_of_mem _ hw)
    obtain ⟨fuel, rfl⟩ : ∃ n, fuel = n + 1 := ⟨fuel - 1, by omega⟩
    rcases splitSpaces_eq_cons hsplit with ⟨rfl, rfl⟩ | ⟨rest, rfl, hrest⟩
    · have hend : ∀ c ∈ ([] : List Char).head?, FullText.isBare c = false := nofun
      have hread := settingWords?_word hword hend fuel
      rw [List.append_nil] at hread
      rw [hread]
      cases fuel <;> rfl
    · have hlength : rest.length < fuel := by
        rw [List.length_append, List.length_cons] at hfuel
        omega
      rw [settingWords?_word hword (by rintro _ ⟨⟩; decide) fuel]
      have hskip : skipBlanks (' ' :: rest) = rest := by
        obtain ⟨c, tail, rfl, hc⟩ := begins_with_word (hrest ▸ hmore)
        exact skipBlanks_cons hc tail
      rw [hskip, ih hlength hrest hmore]
      rfl

theorem ofSetting?_eq {setting : String} (h : isTokenizerSetting setting = true) :
    ofSetting? setting = ofWords? (splitSpaces setting.toList) := by
  unfold ofSetting?
  simp only [settingWords?_splitSpaces (isTokenizerSetting_iff.mp h) (Nat.lt_succ_self _)]
  rfl

end Tokenizer

/-! ## The form that a setting declares -/

theorem Scan.inside {quote : Char} {cs : List Char} (h : ∀ c ∈ cs, c ≠ quote) :
    state (some quote) cs = some quote ∧ count (some quote) cs = 0 := by
  induction cs with
  | nil => exact ⟨rfl, rfl⟩
  | cons c rest ih =>
    simp only [state, count, if_neg (h c List.mem_cons_self)]
    exact ih fun d hd => h d (List.mem_cons_of_mem _ hd)

namespace TableArgument

variable {setting : String}

theorem counts_tokenizeOption (h : isTokenizerSetting setting = true) : Counts (tokenizeOption setting) 0 := by
  have hinside : ∀ c ∈ setting.toList, c ≠ '\'' := fun c hc => ne_of_mem_setting h hc (by decide) (by decide)
  obtain ⟨hstate, hcount⟩ := Scan.inside hinside
  unfold Counts placeholders tokenizeOption
  have hopen : Scan.state none "tokenize = '".toList = some '\'' := by decide
  rw [String.toList_append, String.toList_append, Scan.state_append, Scan.state_append, Scan.count_append,
    Scan.count_append, Scan.state_append, hopen, hstate, hcount]
  exact ⟨by decide, by decide⟩

end TableArgument

namespace FullTextForm

variable {setting table : String} {columns : List String}

theorem ofOptions?_tokenize (setting : String) :
    ofOptions? [(.tokenize, setting)] = (Tokenizer.ofSetting? setting).map fun tokenizer => { tokenizer } := by
  have hvalue : single? [(.tokenize, setting)] .tokenize = some (some setting) := rfl
  have hbeginnings : valuesOf [(.tokenize, setting)] .beginnings = [] := rfl
  have hsizes : last? [(.tokenize, setting)] .columnSizes FullText.flag? true = some true := rfl
  have hstore : store? [(.tokenize, setting)] true = some .own := rfl
  have hname : single? [(.tokenize, setting)] .contentRowid = some none := rfl
  have hlocale : last? [(.tokenize, setting)] .locale FullText.flag? false = some false := rfl
  have hdata : last? [(.tokenize, setting)] .tokenData FullText.flag? false = some false := rfl
  have hdetail : last? [(.tokenize, setting)] .detail FullText.Detail.ofName? .positions = some .positions := rfl
  unfold ofOptions?
  simp only [hvalue, hbeginnings, hsizes, hstore, hname, hlocale, hdata, hdetail, List.mapM_nil, Option.bind_eq_bind,
    Option.pure_def, Option.bind_some, List.flatten_nil, List.length_nil, Nat.not_lt_zero, if_false]
  cases Tokenizer.ofSetting? setting with
  | none => rfl
  | some tokenizer => rfl

theorem ofArguments?_tokenize (hcolumns : columns.length < maxArguments) :
    ofArguments? table columns [.option "tokenize" setting] =
      (Tokenizer.ofSetting? setting).map fun tokenizer => { tokenizer } := by
  have hname : FullText.FormOption.ofName? "tokenize" = some .tokenize := by decide
  have hfew : ¬ maxArguments < columns.length + 1 := by omega
  unfold ofArguments?
  simp only [columns?, options?, hname, areDistinct, ofOptions?_tokenize, List.length_singleton, if_neg hfew,
    Option.bind_eq_bind, Option.bind_some]
  cases Tokenizer.ofSetting? setting with
  | none => rfl
  | some tokenizer => rfl

end FullTextForm

namespace Database

/-- The form of a table whose setting passed its check is that of the tokenizer, if its words name one. -/
theorem fullTextForm?_eq {d : Definition} {setting : String} {columns : List String}
    (hs : d.settings = [(tokenizeKey, setting)]) (h : isTokenizerSetting setting = true)
    (hcolumns : columns.length < FullTextForm.maxArguments) :
    fullTextForm? d columns = match Tokenizer.ofWords? (splitSpaces setting.toList) with
      | some tokenizer => .ok { tokenizer }
      | none => .error (.sql (.declaration d.tableName)) := by
  have hget : (d.settings.get? tokenizeKey).getD defaultTokenizer = setting := by
    rw [hs]
    rfl
  have hread := TableArgument.readAll?_tokenizeOption h
  have hraw := Fragment.raw_eq (TableArgument.counts_tokenizeOption h)
  unfold TableArgument.tokenizeOption at hread hraw
  unfold fullTextForm?
  simp only [hget, hraw, hread, Option.bind_some, FullTextForm.ofArguments?_tokenize hcolumns,
    Tokenizer.ofSetting?_eq h]
  cases Tokenizer.ofWords? (splitSpaces setting.toList) with
  | none => rfl
  | some tokenizer => rfl

end Database

end DocIndex
