import DocIndex.Proofs.FullText.Applicable
import DocIndex.Proofs.Maintenance.Names
import DocIndex.Proofs.Maintenance.Redeclared

/-! # Tokenizers of requested indexes

A request for a text index names a tokenizer or leaves it to the manager. A setting of other characters than the check
allows is refused as a fault of the request. One that passes the check and names no tokenizer gets as far as the
statement that makes the table, and what comes back is a failure of the database, which calls for another try.
-/

namespace DocIndex

namespace IndexSpec

variable {s : IndexSpec}

def choosing (s : IndexSpec) : Option String → IndexSpec
  | none => s
  | some tokenizer => s.withSetting tokenizeKey tokenizer

theorem withDefaultTokenizer_choosing (hk : s.kind = .text) (hs : s.settings = []) (own? : Option String)
    (default : String) :
    (s.choosing own?).withDefaultTokenizer default = s.withSetting tokenizeKey (own?.getD default) := by
  cases own? with
  | none =>
    have hnone : (s.settings.get? tokenizeKey).isNone = true := by
      rw [hs]
      rfl
    exact if_pos ⟨hk, hnone⟩
  | some tokenizer =>
    have hsome := Settings.get?_insert_isSome s.settings tokenizeKey tokenizer
    refine if_neg fun h => ?_
    have hnone : ((s.settings.insert tokenizeKey tokenizer).get? tokenizeKey).isNone = true := h.2
    rw [← Option.not_isSome, hsome] at hnone
    cases hnone

theorem settings_withSetting (hs : s.settings = []) (setting : String) :
    (s.withSetting tokenizeKey setting).settings = [(tokenizeKey, setting)] := by
  unfold withSetting
  rw [hs]
  rfl

/-- Of a request that is valid otherwise, only the characters of the setting are checked. -/
theorem validate_withSetting (hvalidate : s.validate = .ok ()) (hk : s.kind = .text) (hs : s.settings = [])
    (setting : String) : (s.withSetting tokenizeKey setting).validate =
      if isTokenizerSetting setting = true then .ok () else .error (.invalidIndexSettings (.badTokenizer setting)) := by
  obtain ⟨hname, hne, hfields, _⟩ := validate_ok hvalidate
  have hempty : s.fields.isEmpty = false := by simpa using hne
  have hbuiltin : s.fields.find? (·.isBuiltin) = none :=
    List.find?_eq_none.mpr fun f hf => by simp [not_builtin_of_validate hvalidate hk f hf]
  have hkind : (s.withSetting tokenizeKey setting).kind = .text := hk
  have hsame : (s.withSetting tokenizeKey setting).name = s.name ∧
      (s.withSetting tokenizeKey setting).fields = s.fields := ⟨rfl, rfl⟩
  unfold validate checkIndexName checkContents checkSettings
  simp only [hsame, hkind, hname, hempty, hfields, hbuiltin, settings_withSetting hs, checkTextSettings]
  cases isTokenizerSetting setting with
  | true => rfl
  | false => rfl

end IndexSpec

namespace Database

variable {db : Database} {s : IndexSpec} {xs : List Content}

/-- A text index can be declared if nothing is wrong with its tokenizer: the request is valid, its table has not too
many columns, its names are free, and there is no other text index. -/
structure Awaits (db : Database) (s : IndexSpec) : Prop where
  kind_eq : s.kind = .text
  settings_eq : s.settings = []
  validate_eq : s.validate = .ok ()
  few : s.fields.length + 2 < FullTextForm.maxArguments
  free : ∀ n ∈ (s.definition 0).takenNames, db.isTaken n = false
  alone : ∀ ds, db.definitions = .ok ds → ∀ d ∈ ds, d.kind ≠ .text

theorem Holds.name_apart_of_free (h : db.Holds xs) {name : String} (hfree : db.isTaken (tableNameOf name) = false) :
    ∀ x ∈ xs, sameName x.name name = false := by
  intro x hx
  rw [← Bool.not_eq_true]
  intro hsame
  have htaken : db.isTaken (tableNameOf name) = true := by
    refine (h.isTaken_iff _).mpr (Or.inr ⟨x, hx, _, Definition.tableName_mem_takenNames _, ?_⟩)
    rw [Definition.tableName, sameName_tableNameOf]
    exact hsame
  rw [hfree] at htaken
  cases htaken

theorem Awaits.conflict?_eq (h : db.Awaits s) {ds : List Definition} (hds : db.definitions = .ok ds)
    (hapart : ∀ d ∈ ds, sameName d.name s.name = false) (setting : String) :
    conflict? ds (s.withSetting tokenizeKey setting) = none := by
  have hname : ds.find? (sameName ·.name s.name) = none :=
    List.find?_eq_none.mpr fun d hd => by simp [hapart d hd]
  have htext : ds.find? (·.kind == .text) = none :=
    List.find?_eq_none.mpr fun d hd => by simp [h.alone ds hds d hd]
  have hkind : (s.withSetting tokenizeKey setting).kind = .text := h.kind_eq
  have hsame : (s.withSetting tokenizeKey setting).name = s.name := rfl
  unfold conflict?
  simp only [hsame, hkind, hname, htext, Option.map_none]

theorem length_columnsFrom_le (position : Nat) (fields : List IndexField) :
    (Definition.columnsFrom position fields).length ≤ fields.length := by
  induction fields generalizing position with
  | nil => exact Nat.le_refl 0
  | cons f rest ih =>
    have hrest := ih (position + 1)
    unfold Definition.columnsFrom
    split
    · rw [List.length_cons]
      omega
    · rw [List.length_cons, List.length_cons]
      omega

/-- The table that is made for a request with this tokenizer. -/
def textTable (s : IndexSpec) (tokenizer : Tokenizer) : Table :=
  { name := tableNameOf s.name
    form := .fullText { tokenizer }
    columns := (s.definition 0).fieldColumns.map (·.2) }

theorem Awaits.emptyTable?_eq (h : db.Awaits s) {setting : String} (hsetting : isTokenizerSetting setting = true)
    (start : Int) : emptyTable? ((s.withSetting tokenizeKey setting).definition start) =
      match Tokenizer.ofWords? (splitSpaces setting.toList) with
      | some tokenizer => .ok (textTable s tokenizer)
      | none => .error (.sql (.declaration (tableNameOf s.name))) := by
  have hkind : ((s.withSetting tokenizeKey setting).definition start).kind = .text := h.kind_eq
  have hsettings : ((s.withSetting tokenizeKey setting).definition start).settings = [(tokenizeKey, setting)] :=
    IndexSpec.settings_withSetting h.settings_eq setting
  have hfew : (idColumn :: revColumn :: (s.definition 0).fieldColumns.map (·.2)).length <
      FullTextForm.maxArguments := by
    have hle := length_columnsFrom_le 0 s.fields
    have hlt := h.few
    simp only [List.length_cons, List.length_map, Definition.fieldColumns, IndexSpec.definition]
    omega
  have hform := fullTextForm?_eq hsettings hsetting hfew
  have hcolumns : ((s.withSetting tokenizeKey setting).definition start).fieldColumns =
    (s.definition 0).fieldColumns := rfl
  unfold emptyTable?
  simp only [hkind, hcolumns, hform]
  cases Tokenizer.ofWords? (splitSpaces setting.toList) with
  | none => rfl
  | some tokenizer => rfl

theorem Awaits.createTable_eq (h : db.Awaits s) {setting : String} (hsetting : isTokenizerSetting setting = true)
    (start : Int) (c : Catalog) :
    ({ db with catalog := c } : Database).createTable ((s.withSetting tokenizeKey setting).definition start) =
      match Tokenizer.ofWords? (splitSpaces setting.toList) with
      | some tokenizer => .ok { db with catalog := c, tables := db.tables ++ [textTable s tokenizer] }
      | none => .error (.sql (.declaration (tableNameOf s.name))) := by
  unfold createTable
  rw [h.emptyTable?_eq hsetting]
  cases Tokenizer.ofWords? (splitSpaces setting.toList) with
  | none => rfl
  | some tokenizer =>
    have hnames : (textTable s tokenizer).takenNames = (s.definition 0).takenNames := by
      unfold Definition.takenNames Definition.lookups
      rw [show (s.definition 0).kind = .text from h.kind_eq]
      rfl
    have hfree : (textTable s tokenizer).takenNames.find? ({ db with catalog := c } : Database).isTaken = none := by
      rw [hnames, List.find?_eq_none]
      intro n hn
      have hn := h.free n hn
      simpa [isTaken] using hn
    simp only [bind, Except.bind, hfree]

theorem Awaits.ensure_eq (h : db.Awaits s) (horderly : db.Orderly) {setting : String}
    (hsetting : isTokenizerSetting setting = true) (start : Int) :
    db.ensure (s.withSetting tokenizeKey setting) start =
      match Tokenizer.ofWords? (splitSpaces setting.toList) with
      | some tokenizer =>
        .ok { db with
          catalog := db.catalog.insert ((s.withSetting tokenizeKey setting).definition start)
          tables := db.tables ++ [textTable s tokenizer] }
      | none => .error (.sql (.declaration (tableNameOf s.name))) := by
  obtain ⟨xs, hholds, _⟩ := horderly
  have hfree : db.isTaken (tableNameOf s.name) = false := h.free _ (Definition.tableName_mem_takenNames _)
  have hapart : ∀ d ∈ Catalog.sorted (xs.map (·.definition)), sameName d.name s.name = false := by
    intro d hd
    obtain ⟨x, hx, rfl⟩ := mem_sorted_iff.mp hd
    exact hholds.name_apart_of_free hfree x hx
  have hnew : ∀ d ∈ Catalog.sorted (xs.map (·.definition)), d.name ≠ (s.withSetting tokenizeKey setting).name := by
    intro d hd heq
    have hsame : sameName d.name s.name = false := hapart d hd
    rw [show d.name = s.name from heq, sameName_refl] at hsame
    cases hsame
  have hconflict := h.conflict?_eq hholds.definitions hapart setting
  rw [ensure_new hholds.definitions hnew hconflict, h.createTable_eq hsetting]

end Database

namespace Manager

open DocIndex.Action

variable {σ : Type} {m : Manager σ} {s : σ} {spec : IndexSpec} {e : QueryError}

theorem ensure_refused (h : (spec.withDefaultTokenizer m.settings.defaultTokenizer).validate = .error e) :
    m.ensure spec s = (.error e, s) := by
  have hlift : (liftM (spec.withDefaultTokenizer m.settings.defaultTokenizer).validate : Action σ Unit) s =
      (.error e, s) := by
    rw [h]
    rfl
  unfold ensure
  dsimp only
  rw [bind_apply, hlift]

/-- A manager with these settings whose requests the store answers. -/
def alone (settings : ManagerSettings) : Manager Session := { host := Session.host 0, settings }

theorem startSequence_alone (settings : ManagerSettings) (w : World) :
    (alone settings).startSequence { world := w, script := [] } =
      (.ok (if settings.backfillNewIndexes then 0 else w.store.sequence), { world := w, script := [] }) := by
  unfold startSequence
  cases hbackfill : settings.backfillNewIndexes with
  | true =>
    rw [if_pos (show (alone settings).settings.backfillNewIndexes = true from hbackfill)]
    rfl
  | false =>
    rw [if_neg (by simp [alone, hbackfill])]
    rfl

theorem ensure_alone {settings : ManagerSettings} (w : World)
    (h : (spec.withDefaultTokenizer settings.defaultTokenizer).validate = .ok ()) :
    (alone settings).ensure spec { world := w, script := [] } =
      match w.database.ensure (spec.withDefaultTokenizer settings.defaultTokenizer)
        (if settings.backfillNewIndexes then 0 else w.store.sequence) with
      | .ok database => (.ok spec.name, { world := { w with database }, script := [] })
      | .error e => (.error e, { world := w, script := [] }) := by
  rw [ensure_eq (m := alone settings) h (fun _ => rfl) (startSequence_alone settings w)]
  rfl

end Manager

namespace World

/-- After any visits to an empty database, let a text index be requested that could be declared as far as its tokenizer
is not concerned. If the setting, its own or that of the manager, does not pass the check, the request is refused as a
fault of the settings, and nothing changes. If it passes but its words name no tokenizer, nothing changes either, but
the answer is a failure of the database, which is to be tried again. If they name one, the index is declared with it. -/
theorem visited_ensure_tokenizer {w : World} (visits : List Visit) (hw : visited {} visits = w)
    (settings : ManagerSettings) (s : IndexSpec) (own? : Option String) (h : w.database.Awaits s) (setting : String)
    (hsetting : own?.getD settings.defaultTokenizer = setting) :
    (isTokenizerSetting setting = false →
      ∃ e, (Manager.alone settings).ensure (s.choosing own?) { world := w, script := [] } =
          (.error e, { world := w, script := [] }) ∧
        e = .invalidIndexSettings (.badTokenizer setting) ∧ e.retryable = false) ∧
    (isTokenizerSetting setting = true → Tokenizer.ofWords? (splitSpaces setting.toList) = none →
      ∃ e, (Manager.alone settings).ensure (s.choosing own?) { world := w, script := [] } =
          (.error e, { world := w, script := [] }) ∧
        e = .sql (.declaration (tableNameOf s.name)) ∧ e.retryable = true) ∧
    (∀ tokenizer, isTokenizerSetting setting = true →
      Tokenizer.ofWords? (splitSpaces setting.toList) = some tokenizer →
      ∃ next, (Manager.alone settings).ensure (s.choosing own?) { world := w, script := [] } =
          (.ok (s.choosing own?).name, { world := { w with database := next }, script := [] }) ∧
        next.tables = w.database.tables ++ [Database.textTable s tokenizer]) := by
  have horderly : w.database.Orderly := by
    rw [← hw]
    exact orderly_visited .empty visits
  have hrequest := IndexSpec.withDefaultTokenizer_choosing h.kind_eq h.settings_eq own? settings.defaultTokenizer
  have hvalidate := IndexSpec.validate_withSetting h.validate_eq h.kind_eq h.settings_eq setting
  rw [hsetting] at hrequest
  rw [← hrequest] at hvalidate
  cases hcheck : isTokenizerSetting setting with
  | false =>
    rw [hcheck, if_neg Bool.false_ne_true] at hvalidate
    exact ⟨fun _ => ⟨_, Manager.ensure_refused (m := Manager.alone settings) hvalidate, rfl, rfl⟩, nofun, nofun⟩
  | true =>
    rw [hcheck, if_pos rfl] at hvalidate
    have hensure := h.ensure_eq horderly hcheck (if settings.backfillNewIndexes then 0 else w.store.sequence)
    rw [← hrequest] at hensure
    refine ⟨nofun, fun _ hwords => ?_, fun tokenizer _ hwords => ?_⟩
    · refine ⟨_, ?_, rfl, rfl⟩
      rw [Manager.ensure_alone w hvalidate, hensure, hwords]
    · rw [Manager.ensure_alone w hvalidate, hensure, hwords]
      exact ⟨_, rfl, rfl⟩

def asCounts : IndexSpec := { name := "counts", fields := [{ path := "count" }] }

def counted : List Visit :=
  [{ call := .reopen {} .absent none }, { call := .ensure asCounts Settings.ascending_nil }]

/-- A request for a text index that leaves the tokenizer open. -/
def asNotes : IndexSpec := { name := "notes", kind := .text, fields := [{ path := "note" }] }

theorem visited_ensure_tokenizer_counted : (visited {} counted).database.Awaits asNotes ∧
    ((Manager.alone {}).ensure (asNotes.choosing (some "porter ascii"))
      { world := visited {} counted, script := [] }).1.toOption = some "notes" ∧
    (∃ e, (Manager.alone {}).ensure (asNotes.choosing (some "porter')")) { world := visited {} counted, script := [] } =
        (.error e, { world := visited {} counted, script := [] }) ∧ e.retryable = false) ∧
    ∃ e, (Manager.alone { defaultTokenizer := "nonesuch" }).ensure (asNotes.choosing none)
        { world := visited {} counted, script := [] } =
      (.error e, { world := visited {} counted, script := [] }) ∧ e.retryable = true := by
  have hlist : (visited {} counted).database.definitions.toOption = some [asCounts.definition 0] := by decide +kernel
  have hawaits : (visited {} counted).database.Awaits asNotes := by
    refine ⟨rfl, rfl, by rfl, by decide, by decide +kernel, fun ds hds d hd => ?_⟩
    rw [hds] at hlist
    obtain rfl : ds = [asCounts.definition 0] := Option.some.inj hlist
    rw [List.mem_singleton.mp hd]
    decide
  obtain ⟨_, _, hdeclared⟩ := visited_ensure_tokenizer counted rfl {} asNotes (some "porter ascii") hawaits _ rfl
  obtain ⟨hmalformed, _⟩ := visited_ensure_tokenizer counted rfl {} asNotes (some "porter')") hawaits _ rfl
  obtain ⟨_, hunknown, _⟩ :=
    visited_ensure_tokenizer counted rfl { defaultTokenizer := "nonesuch" } asNotes none hawaits _ rfl
  obtain ⟨next, hok, _⟩ := hdeclared (.stems (.words {})) (by decide) (by decide)
  obtain ⟨e, hrefused, _, hfinal⟩ := hmalformed (by decide)
  obtain ⟨f, hfailed, _, hagain⟩ := hunknown (by decide) (by decide)
  refine ⟨hawaits, ?_, ⟨e, hrefused, hfinal⟩, f, hfailed, hagain⟩
  rw [hok]
  rfl

/-- A setting with which no table can be made is not always refused as one: a word that names no tokenizer is left to
the database. -/
theorem not_visited_ensure_tokenizer_unknown : ¬ ∀ (s : IndexSpec) (setting : String),
    ({} : World).database.Awaits s →
    (Database.emptyTable? ((s.withSetting tokenizeKey setting).definition 0)).toBool = false →
    ∃ cause, ((Manager.alone {}).ensure (s.choosing (some setting)) { world := {}, script := [] }).1 =
      .error (.invalidIndexSettings cause) := by
  intro h
  have hawaits : ({} : World).database.Awaits asNotes := by
    refine ⟨rfl, rfl, by rfl, by decide, by decide +kernel, fun ds hds d hd => ?_⟩
    obtain rfl : ds = [] := (Except.ok.inj hds).symm
    cases hd
  obtain ⟨cause, hcause⟩ := h asNotes "nonesuch" hawaits (by decide +kernel)
  have hagain : (match ((Manager.alone {}).ensure (asNotes.choosing (some "nonesuch"))
      { world := {}, script := [] }).1 with
    | .error e => e.retryable
    | .ok _ => false) = true := by decide +kernel
  rw [hcause] at hagain
  cases hagain

end World

end DocIndex
