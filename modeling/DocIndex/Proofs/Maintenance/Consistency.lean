import DocIndex.Proofs.Database.Declare
import DocIndex.Proofs.Maintenance.World

/-! # Indexes agree with the feed

Whatever happens between the steps of updaters, every index follows the store from where it starts. The
invariant says so of all contents at once, and of every page in flight that it covers what comes after the
sequence it was fetched from; a page whose checkpoint has moved meanwhile is not applied.
-/

namespace DocIndex

variable {s t : Store} {w : World} {written later : List Revision} {xs ys : List Content} {x : Content}

/-- What an updater has in hand fits the store. -/
def Phase.Fits (s : Store) (written : List Revision) : Phase → Prop
  | .reading target | .ready target _ => target ≤ s.sequence
  | .fetched target since page => target ≤ s.sequence ∧ page.Covers s since ∧ ∀ r ∈ page.changes, r ∈ written
  | .finished _ | .failed => True

theorem Phase.Fits.of_precedes {p : Phase} (h : p.Fits s written) (hst : s.Precedes t) (hw : written ⊆ later) :
    p.Fits t later := by
  have hle := hst.sequence_le
  cases p with
  | reading target => exact Int.le_trans h hle
  | ready target since => exact Int.le_trans h hle
  | fetched target since page =>
    exact ⟨Int.le_trans h.1 hle, h.2.1.of_precedes hst, fun r hr => hw (h.2.2 r hr)⟩
  | finished checkpoint? => trivial
  | failed => trivial

/-- No checkpoint has moved back, if not by a rebuild. -/
def Content.Advance (xs ys : List Content) : Prop :=
  ∀ x ∈ xs, ∀ y ∈ ys, x.name = y.name → x.definition.lastSequence ≤ y.definition.lastSequence

theorem Content.Advance.refl (hn : (xs.map Content.name).Nodup) : Content.Advance xs xs := by
  intro x hx y hy hname
  rw [Content.eq_of_name_eq hn hx hy hname]

/-- All contents follow the store from their starts, and all updaters fit it. -/
structure World.Sound (w : World) (xs : List Content) : Prop where
  store : w.store.WellFormed
  written : ∀ id, ∀ r ∈ w.store.history id, r ∈ w.written
  holds : w.database.Holds xs
  follows : ∀ x ∈ xs, x.Follows w.store w.written (w.starts x.name)
  updaters : ∀ n u, w.updaters n = some u → u.phase.Fits w.store w.written

/-! ## One step of an updater -/

theorem Content.Advance.put (hn : (xs.map Content.name).Nodup) (hx : x ∈ xs) {y : Content} (hname : x.name = y.name)
    (hle : x.definition.lastSequence ≤ y.definition.lastSequence) : Content.Advance xs (Content.put y xs) := by
  intro z hz v hv hzv
  rcases Content.mem_put.mp hv with ⟨hv, _⟩ | ⟨rfl, _⟩
  · rw [Content.eq_of_name_eq hn hz hv hzv]
  · rw [Content.eq_of_name_eq hn hz hx (hzv.trans hname.symm)]
    exact hle

theorem exists_name_or (xs : List Content) (index : String) :
    (∃ x ∈ xs, x.name = index) ∨ ∀ x ∈ xs, x.name ≠ index := by
  by_cases h : ∃ x ∈ xs, x.name = index
  · exact Or.inl h
  · right
    intro x hx hname
    exact h ⟨x, hx, hname⟩

theorem World.Sound.fetch (h : w.Sound xs) {target since : Int} (hlt : since < target)
    (htarget : target ≤ w.store.sequence) (batchSize : Nat) :
    (Phase.fetched target since (Page.cut target (max batchSize 1)
      (w.store.changesSince since (max batchSize 1)))).Fits w.store w.written := by
  refine ⟨htarget, Page.cut_covers h.store (by omega) hlt htarget, ?_⟩
  intro r hr
  have hwin := h.store.winning_of_mem_changesSince (Page.mem_cut_changes.mp hr).1
  exact h.written _ r (Store.mem_history_of_winning? hwin)

theorem World.Sound.applied (h : w.Sound xs) (hx : x ∈ xs) {page : Page}
    (hcovers : page.Covers w.store x.definition.lastSequence) (hchanges : ∀ r ∈ page.changes, r ∈ w.written)
    {next : Database} (hholds : next.Holds (Content.put (x.apply page) xs)) :
    World.Sound { w with database := next } (Content.put (x.apply page) xs) := by
  refine ⟨h.store, h.written, hholds, ?_, h.updaters⟩
  intro y hy
  rcases Content.mem_put.mp hy with ⟨hy, _⟩ | ⟨rfl, _⟩
  · exact h.follows y hy
  · rw [Content.apply_name]
    exact (h.follows x hx).apply h.store hcovers hchanges

/-- A step keeps what an updater has in hand fitting, and contents following. -/
theorem Updater.step_sound (h : w.Sound xs) {u : Updater} (hu : u.phase.Fits w.store w.written) :
    (u.step w.store w.database).1.phase.Fits w.store w.written ∧
    ∃ ys, (u.step w.store w.database).2.Holds ys ∧
      (∀ y ∈ ys, y.Follows w.store w.written (w.starts y.name)) ∧ Content.Advance xs ys := by
  have hstay : ∃ ys, w.database.Holds ys ∧
      (∀ y ∈ ys, y.Follows w.store w.written (w.starts y.name)) ∧ Content.Advance xs ys :=
    ⟨xs, h.holds, h.follows, Content.Advance.refl h.holds.distinct⟩
  obtain ⟨index, batchSize, patience, phase⟩ := u
  cases phase with
  | reading target =>
    rcases exists_name_or xs index with ⟨x, hx, rfl⟩ | hnone
    · simp only [step, h.holds.lastSequence? hx]
      exact ⟨hu, hstay⟩
    · simp only [step, h.holds.lastSequence?_none hnone]
      exact ⟨trivial, hstay⟩
  | ready target since =>
    unfold step
    by_cases hle : target ≤ since
    · simp only [if_pos hle]
      exact ⟨trivial, hstay⟩
    · simp only [if_neg hle]
      exact ⟨h.fetch (by omega) hu batchSize, hstay⟩
  | fetched target since page =>
    obtain ⟨htarget, hcovers, hchanges⟩ := hu
    rcases exists_name_or xs index with ⟨x, hx, rfl⟩ | hnone
    · by_cases hmoved : x.definition.lastSequence = since
      · obtain ⟨next, hnext, hholds, _⟩ := h.holds.applyBatch_applied hx page
        subst hmoved
        simp only [step, hnext]
        refine ⟨htarget, _, hholds, (h.applied hx hcovers hchanges hholds).follows, ?_⟩
        · refine Content.Advance.put h.holds.distinct hx (Content.apply_name x page).symm ?_
          exact Int.le_of_lt hcovers.since_lt
      · simp only [step, h.holds.applyBatch_moved hx hmoved page]
        cases patience with
        | zero => exact ⟨trivial, hstay⟩
        | succ patience => exact ⟨htarget, hstay⟩
    · simp only [step, h.holds.applyBatch_vanished hnone]
      exact ⟨trivial, hstay⟩
  | finished checkpoint? => exact ⟨trivial, hstay⟩
  | failed => exact ⟨trivial, hstay⟩

/-! ## One event -/

namespace World

namespace Sound

theorem empty : Sound {} [] where
  store := Store.WellFormed.empty
  written := by simp [Store.history]
  holds := Database.Holds.empty
  follows := by simp
  updaters := by simp

theorem of_precedes (h : w.Sound xs) (ht : t.WellFormed) (hst : w.store.Precedes t) (hw : w.written ⊆ later)
    (hmem : ∀ id, ∀ r ∈ t.history id, r ∈ later) : Sound { w with store := t, written := later } xs where
  store := ht
  written := hmem
  holds := h.holds
  follows x hx := (h.follows x hx).of_precedes hst hw
  updaters n u hu := (h.updaters n u hu).of_precedes hst hw

theorem recorded (h : w.Sound xs) (docId : String) (g : Nat) (deleted : Bool) (body : Object) :
    (w.recorded docId g deleted body).Sound xs := by
  refine h.of_precedes (h.store.record docId g deleted body) (Store.precedes_record _ _ _ _ _)
    (List.subset_append_left _ _) ?_
  intro id q hq
  rw [Store.history_record] at hq
  split at hq
  · rcases List.mem_append.mp hq with hq | hq
    · exact List.mem_append_left _ (h.written id q hq)
    · exact List.mem_append_right _ hq
  · exact List.mem_append_left _ (h.written id q hq)

theorem purge (h : w.Sound xs) (docId : String) : Sound { w with store := (w.store.purge docId).2 } xs := by
  refine h.of_precedes (h.store.purge docId) (Store.precedes_purge _ _) (fun _ hr => hr) ?_
  intro id r hr
  rw [Store.history_purge] at hr
  split at hr
  · simp at hr
  · exact h.written id r hr

theorem isDefined_iff (h : w.Sound xs) (index : String) : w.isDefined index = true ↔ ∃ x ∈ xs, x.name = index := by
  unfold isDefined
  rw [h.holds.catalog_eq, Catalog.contains_ofDefinitions h.holds.storable]
  constructor
  · rintro ⟨d, hd, rfl⟩
    obtain ⟨x, hx, rfl⟩ := List.mem_map.mp hd
    exact ⟨x, hx, rfl⟩
  · rintro ⟨x, hx, rfl⟩
    exact ⟨x.definition, List.mem_map_of_mem hx, rfl⟩

theorem mem_outdated_iff (h : w.Sound xs) (hx : x ∈ xs) :
    x.name ∈ w.outdated ↔ x.definition.schemaVersion < currentLayout := by
  have hperm := Catalog.sorted_perm (xs.map (·.definition))
  unfold outdated
  rw [h.holds.definitions]
  simp only [List.mem_map, List.mem_filter, decide_eq_true_eq]
  constructor
  · rintro ⟨d, ⟨hd, hlt⟩, hname⟩
    obtain ⟨z, hz, rfl⟩ := List.mem_map.mp (hperm.mem_iff.mp hd)
    rwa [Content.eq_of_name_eq h.holds.distinct hx hz hname.symm]
  · intro hlt
    exact ⟨x.definition, ⟨hperm.mem_iff.mpr (List.mem_map_of_mem hx), hlt⟩, rfl⟩

end Sound

/-- After a step of the world from some contents to others: no checkpoint has moved back, but that an index of
an older layout was rebuilt. -/
def Moves (e : Event) (xs ys : List Content) : Prop :=
  ∀ x ∈ xs, ∀ y ∈ ys, x.name = y.name → x.definition.lastSequence ≤ y.definition.lastSequence ∨
    ((∃ settings file key?, e = .reopen settings file key?) ∧ x.definition.schemaVersion < currentLayout ∧
      y.definition.lastSequence = 0)

theorem Moves.of_advance {e : Event} (h : Content.Advance xs ys) : Moves e xs ys :=
  fun x hx y hy hname => Or.inl (h x hx y hy hname)

namespace Sound

theorem ensure (h : w.Sound xs) {spec : IndexSpec} (ht : spec.kind = .text → (spec.settings.get? tokenizeKey).isSome)
    (start : Int) : ∃ ys, (w.ensure spec start).Sound ys ∧ Content.Advance xs ys := by
  have hstay : ∃ ys, w.Sound ys ∧ Content.Advance xs ys := ⟨xs, h, Content.Advance.refl h.holds.distinct⟩
  rcases w.ensure_cases spec start with hsame | ⟨database, hvalidate, hsettings, hle, hok, heq⟩
  · rw [hsame]
    exact hstay
  rw [heq]
  rcases h.holds.ensure (IndexSpec.definition_valid hvalidate hsettings ht start) hok with
    ⟨rfl, hthere⟩ | ⟨hnew, _, _, hholds⟩
  · simp only [(h.isDefined_iff spec.name).mpr hthere, if_true]
    exact hstay
  · have hnot : ¬ w.isDefined spec.name = true := by
      rw [h.isDefined_iff]
      rintro ⟨x, hx, hname⟩
      exact hnew x hx hname
    simp only [if_neg hnot]
    refine ⟨_, ⟨h.store, h.written, hholds, ?_, h.updaters⟩, ?_⟩
    · intro x hx
      rcases List.mem_append.mp hx with hx | hx
      · have hother : x.name ∉ [spec.name] := by simpa using hnew x hx
        simp only [startsAt_of_not_mem hother]
        exact h.follows x hx
      · rw [List.mem_singleton.mp hx]
        have hnew' : Content.name ⟨spec.definition start, []⟩ ∈ [spec.name] := List.mem_singleton_self _
        simp only [startsAt_of_mem hnew']
        exact Content.Follows.of_rows_nil rfl rfl hle
    · intro x hx y hy hname
      rcases List.mem_append.mp hy with hy | hy
      · rw [Content.eq_of_name_eq h.holds.distinct hx hy hname]
      · rw [List.mem_singleton.mp hy] at hname
        exact absurd hname (hnew x hx)

theorem deleteIndex (h : w.Sound xs) (name : String) :
    ∃ ys, (w.changed (w.database.deleteIndex name)).Sound ys ∧ Content.Advance xs ys := by
  cases hok : w.database.deleteIndex name with
  | error e => exact ⟨xs, h, Content.Advance.refl h.holds.distinct⟩
  | ok database =>
    have hholds := (h.holds.deleteIndex hok).holds
    refine ⟨_, ⟨h.store, h.written, hholds, ?_, h.updaters⟩, ?_⟩
    · exact fun x hx => h.follows x (List.mem_filter.mp hx).1
    · intro x hx y hy hname
      rw [Content.eq_of_name_eq h.holds.distinct hx (List.mem_filter.mp hy).1 hname]

theorem setLayout (h : w.Sound xs) (index : String) (version : Int) :
    ∃ ys, (w.changed (w.database.overwriteCatalog index .schemaVersion (.int version))).Sound ys ∧
      Content.Advance xs ys := by
  have hstay : ∃ ys, w.Sound ys ∧ Content.Advance xs ys := ⟨xs, h, Content.Advance.refl h.holds.distinct⟩
  cases hok : w.database.overwriteCatalog index .schemaVersion (.int version) with
  | error e => exact hstay
  | ok database =>
    rcases exists_name_or xs index with ⟨x, hx, rfl⟩ | hnone
    · have hholds := h.holds.setSchemaVersion hx version hok
      refine ⟨_, ⟨h.store, h.written, hholds, ?_, h.updaters⟩, ?_⟩
      · intro y hy
        rcases Content.mem_put.mp hy with ⟨hy, _⟩ | ⟨rfl, _⟩
        · exact h.follows y hy
        · exact (h.follows x hx).congr rfl rfl rfl rfl
      · exact Content.Advance.put h.holds.distinct hx rfl (Int.le_refl _)
    · obtain rfl := h.holds.setSchemaVersion_of_ne hnone version hok
      exact hstay

theorem reopen (h : w.Sound xs) (settings : ConnectionSettings) (file : FileState) (key? : Option EncryptionKey) :
    ∃ ys, (w.reopen settings file key?).Sound ys ∧ Moves (.reopen settings file key?) xs ys := by
  unfold World.reopen
  cases hok : Manager.openDatabase settings file key? w.database with
  | error e => exact ⟨xs, h, Moves.of_advance (Content.Advance.refl h.holds.distinct)⟩
  | ok database =>
    have hholds := h.holds.openDatabase hok
    refine ⟨Database.upgraded xs, ⟨h.store, h.written, hholds, ?_, h.updaters⟩, ?_⟩
    · intro y hy
      obtain ⟨x, hx, rfl⟩ := List.mem_map.mp hy
      by_cases hold : x.definition.schemaVersion < currentLayout
      · have hmem := (h.mem_outdated_iff hx).mpr hold
        have hname : x.rebuilt.name = x.name := rfl
        simp only [if_pos hold, hname, startsAt_of_mem hmem]
        exact Content.Follows.of_rows_nil rfl rfl h.store.nonneg
      · have hmem := mt (h.mem_outdated_iff hx).mp hold
        simp only [if_neg hold, startsAt_of_not_mem hmem]
        exact h.follows x hx
    · intro x hx y hy hname
      obtain ⟨z, hz, rfl⟩ := List.mem_map.mp hy
      by_cases hold : z.definition.schemaVersion < currentLayout
      · rw [if_pos hold] at hname ⊢
        obtain rfl := Content.eq_of_name_eq h.holds.distinct hx hz hname
        exact Or.inr ⟨⟨settings, file, key?, rfl⟩, hold, rfl⟩
      · rw [if_neg hold] at hname ⊢
        obtain rfl := Content.eq_of_name_eq h.holds.distinct hx hz hname
        exact Or.inl (Int.le_refl _)

theorem setUpdater (h : w.Sound xs) (n : Nat) {u : Updater} (hu : u.phase.Fits w.store w.written) :
    (w.setUpdater n u).Sound xs := by
  refine ⟨h.store, h.written, h.holds, h.follows, ?_⟩
  intro m v hv
  simp only [World.setUpdater] at hv
  split at hv
  · obtain rfl := Option.some.inj hv
    exact hu
  · exact h.updaters m v hv

theorem advance (h : w.Sound xs) (n : Nat) : ∃ ys, (w.advance n).Sound ys ∧ Content.Advance xs ys := by
  unfold World.advance
  cases hu : w.updaters n with
  | none => exact ⟨xs, h, Content.Advance.refl h.holds.distinct⟩
  | some u =>
    obtain ⟨hfits, ys, hholds, hfollows, hadvance⟩ := Updater.step_sound h (h.updaters n u hu)
    have hset := h.setUpdater n hfits
    exact ⟨ys, ⟨hset.store, hset.written, hholds, hfollows, hset.updaters⟩, hadvance⟩

theorem write (h : w.Sound xs) {e : Event} (he : e.IsWrite) : (w.step e).Sound xs := by
  rcases step_write_cases w he with ⟨docId, rfl⟩ | hsame | ⟨docId, g, deleted, body, hstep⟩
  · exact h.purge docId
  · rw [hsame]
    exact h
  · rw [hstep]
    exact h.recorded docId g deleted body

/-- Every event keeps the invariant, and no checkpoint moves back but by a rebuild. -/
theorem step (h : w.Sound xs) (e : Event) : ∃ ys, (w.step e).Sound ys ∧ Moves e xs ys := by
  have hstay : Moves e xs xs := Moves.of_advance (Content.Advance.refl h.holds.distinct)
  have hadvance : ∀ v : World, (∃ ys, v.Sound ys ∧ Content.Advance xs ys) → ∃ ys, v.Sound ys ∧ Moves e xs ys :=
    fun v ⟨ys, hs, ha⟩ => ⟨ys, hs, Moves.of_advance ha⟩
  cases e with
  | create docId body => exact ⟨xs, h.write trivial, hstay⟩
  | update docId revId body => exact ⟨xs, h.write trivial, hstay⟩
  | delete docId revId => exact ⟨xs, h.write trivial, hstay⟩
  | purge docId => exact ⟨xs, h.write trivial, hstay⟩
  | ensure spec tokenizer start =>
    exact hadvance _ (h.ensure (IndexSpec.withDefaultTokenizer_get? spec tokenizer) start)
  | deleteIndex name => exact hadvance _ (h.deleteIndex name)
  | setLayout index version => exact hadvance _ (h.setLayout index version)
  | reopen settings file key? => exact h.reopen settings file key?
  | startUpdate n index batchSize patience => exact ⟨xs, h.setUpdater n (Int.le_refl w.store.sequence), hstay⟩
  | advance n => exact hadvance _ (h.advance n)
  | fail n =>
    simp only [World.step]
    cases w.updaters n with
    | none => exact ⟨xs, h, hstay⟩
    | some u => exact ⟨xs, h.setUpdater n trivial, hstay⟩

theorem run (h : w.Sound xs) (events : List Event) : ∃ ys, (w.run events).Sound ys := by
  induction events generalizing w xs with
  | nil => exact ⟨xs, h⟩
  | cons e rest ih =>
    obtain ⟨ys, hs, _⟩ := h.step e
    exact ih hs

end Sound

/-! ## What indexes show -/

def rows? (w : World) (d : Definition) : Except SqlFault (List Row) := do
  (← w.database.table? d.tableName).rows?

/-- The rows of an index are right: for every document whose latest revision lies between the start and the
checkpoint, they are those of this revision under the types that are recorded now, none if it is a tombstone.
Any other document has no rows, or those of one revision that was written up to the checkpoint. -/
structure Agrees (w : World) (d : Definition) (rows : List Row) : Prop where
  start_le : w.starts d.name ≤ d.lastSequence
  checkpoint_le : d.lastSequence ≤ w.store.sequence
  current : ∀ id r, w.store.winning? id = some r → w.starts d.name < r.sequence → r.sequence ≤ d.lastSequence →
    rows.filter (·.docId == id) = if r.deleted then [] else (d.documentRows r).rows
  single : ∀ id, rows.filter (·.docId == id) = [] ∨ ∃ r ∈ w.written, r.docId = id ∧
    r.sequence ≤ d.lastSequence ∧ rows.filter (·.docId == id) = (d.documentRows r).rows

theorem Sound.agrees (h : w.Sound xs) (hx : x ∈ xs) :
    w.rows? x.definition = .ok x.rows ∧ w.Agrees x.definition x.rows := by
  obtain ⟨t, _, hkeeps, htable⟩ := h.holds.table? hx
  have hfollows := h.follows x hx
  refine ⟨?_, hfollows.start_le, hfollows.checkpoint_le, ?_, ?_⟩
  · unfold World.rows?
    simp only [htable, hkeeps.rows?, bind, Except.bind]
  · intro id r hr hlt hle
    have hrows := (hfollows.current id r hr hlt hle).rows_eq
    rw [h.store.winning_docId hr] at hrows
    exact hrows
  · intro id
    refine (hfollows.single id).imp_right ?_
    rintro ⟨r, hr, rfl, hlive, hle, hrep⟩
    refine ⟨r, hr, rfl, hle, ?_⟩
    have hrows := hrep.rows_eq
    rw [Definition.rowsFor, hlive] at hrows
    exact hrows

/-- In every run all indexes can be read, their rows agree with the store, and no event moves a checkpoint back
but one that rebuilds the index. -/
theorem run_agrees (events : List Event) :
    ∃ definitions, (run {} events).database.definitions = .ok definitions ∧ ∀ d ∈ definitions,
      (∃ rows, (run {} events).rows? d = .ok rows ∧ (run {} events).Agrees d rows) ∧
      ∀ e later, ((run {} events).step e).database.definitions = .ok later → ∀ d' ∈ later, d'.name = d.name →
        d.lastSequence ≤ d'.lastSequence ∨
        ((∃ settings file key?, e = .reopen settings file key?) ∧ d.schemaVersion < currentLayout ∧
          d'.lastSequence = 0) := by
  obtain ⟨xs, h⟩ := Sound.empty.run events
  refine ⟨_, h.holds.definitions, ?_⟩
  intro d hd
  obtain ⟨x, hx, rfl⟩ := List.mem_map.mp ((Catalog.sorted_perm _).mem_iff.mp hd)
  refine ⟨⟨x.rows, h.agrees hx⟩, ?_⟩
  intro e later hlater d' hd' hname
  obtain ⟨ys, hys, hmoves⟩ := h.step e
  rw [hys.holds.definitions] at hlater
  obtain rfl := Except.ok.inj hlater
  obtain ⟨y, hy, rfl⟩ := List.mem_map.mp ((Catalog.sorted_perm _).mem_iff.mp hd')
  exact hmoves x hx y hy hname.symm

/-- A run with a write between the target and the feed: the write is left to the next update, and its
document has no rows. -/
def lateWrite : List Event :=
  [.ensure { name := "ages", fields := [{ path := "age" }] } "" 0, .create "ann" [("age", .number (.int 40))],
    .startUpdate 0 "ages" 10 0, .advance 0, .create "bob" [("age", .number (.int 50))], .advance 0, .advance 0]

def lateDefinition : Definition :=
  { name := "ages", kind := .value, fields := [{ path := "age", type? := some .number }], lastSequence := 1 }

theorem run_agrees_late_write : (run {} lateWrite).rows? lateDefinition = .ok [⟨"ann", "1-000001", [.int 40]⟩] ∧
    (run {} lateWrite).Agrees lateDefinition [⟨"ann", "1-000001", [.int 40]⟩] := by
  obtain ⟨definitions, hdefinitions, hall⟩ := run_agrees lateWrite
  have hlist : (run {} lateWrite).database.definitions.toOption = some [lateDefinition] := by decide +kernel
  rw [hdefinitions] at hlist
  obtain rfl : definitions = [lateDefinition] := Option.some.inj hlist
  obtain ⟨⟨rows, hrows, hagrees⟩, _⟩ := hall lateDefinition (List.mem_singleton_self _)
  have hfound : ((run {} lateWrite).rows? lateDefinition).toOption = some [⟨"ann", "1-000001", [.int 40]⟩] := by
    decide +kernel
  rw [hrows] at hfound
  obtain rfl : rows = [⟨"ann", "1-000001", [.int 40]⟩] := Option.some.inj hfound
  exact ⟨hrows, hagrees⟩

end World

end DocIndex
