import DocIndex.Proofs.Maintenance.Batches
import DocIndex.Proofs.Maintenance.Rebuilding
import DocIndex.Proofs.Query.Documents

/-! # Indexes that come back

An index that has read a store from the beginning shows of each document what the recorded types make of its latest
revision, and no such revision fixes a type any more. So an index that is rebuilt keeps its types when it reads the
store anew, in whatever batches, and has its old rows again when it comes to the end. The store has to stay as it is
meanwhile, and nobody may bring in a page that was fetched before the rebuild.
-/

namespace DocIndex

/-! ## Rows and types that a store decides -/

namespace Definition

variable {d later : Definition} {r : Revision}

theorem Retains.documentRows_eq (h : d.Retains later) (r : Revision) : later.documentRows r = d.documentRows r := by
  unfold documentRows
  rw [h.kind_eq, h.fields_eq]

theorem Retains.rowsFor_eq (h : d.Retains later) (r : Revision) : later.rowsFor r = d.rowsFor r := by
  unfold rowsFor
  rw [h.documentRows_eq]

theorem Retains.settles (h : d.Retains later) (hs : d.Settles r) : later.Settles r := by
  unfold Settles
  rw [h.documentRows_eq, h.fields_eq]
  exact hs

end Definition

/-- No latest revision of the store fixes a type in the index. -/
def Store.Settled (s : Store) (d : Definition) : Prop :=
  ∀ r, s.winning? r.docId = some r → r.deleted = false → d.Settles r

namespace Content

variable {x y : Content} {s : Store} {changes : List Revision}

theorem definition_absorbAll (h : ∀ r ∈ changes, r.deleted = false → x.definition.Settles r) :
    (x.absorbAll changes).definition = x.definition := by
  induction changes generalizing x with
  | nil => rfl
  | cons r rest ih =>
    have hfirst : (x.absorb r).definition = x.definition := by
      unfold absorb
      cases hd : r.deleted with
      | true => rfl
      | false =>
        have hsettles : (x.definition.documentRows r).fields = x.definition.fields := h r List.mem_cons_self hd
        simp only [Bool.false_eq_true, if_false, Definition.settled, hsettles]
    change ((x.absorb r).absorbAll rest).definition = x.definition
    rw [ih fun q hq => by rw [hfirst]; exact h q (List.mem_cons_of_mem _ hq), hfirst]

theorem retains_apply {p : Page} (h : ∀ r ∈ p.changes, r.deleted = false → x.definition.Settles r) :
    x.definition.Retains (x.apply p).definition := by
  have hsame : ∀ {α : Type} (f : Definition → α), f (x.absorbAll p.changes).definition = f x.definition :=
    fun f => congrArg f (definition_absorbAll h)
  exact ⟨hsame Definition.name, hsame Definition.kind, hsame Definition.fields, hsame Definition.settings⟩

/-- Every document has the rows of its latest revision, none if it has no revision. -/
def Mirrors (x : Content) (s : Store) : Prop :=
  ∀ id, x.rowsOf id = (s.winning? id).elim [] x.definition.rowsFor

/-- Rows that are the same for each document are the same up to their order. -/
theorem perm_of_rowsOf (h : ∀ id, x.rowsOf id = y.rowsOf id) : x.rows.Perm y.rows := by
  rw [List.perm_iff_count]
  intro row
  have hcount := congrArg (List.count row) (h row.docId)
  unfold rowsOf at hcount
  rwa [List.count_filter (by simp), List.count_filter (by simp)] at hcount

theorem Mirrors.perm (hx : x.Mirrors s) (hy : y.Mirrors s) (h : x.definition.Retains y.definition) :
    y.rows.Perm x.rows := by
  refine perm_of_rowsOf fun id => ?_
  rw [hx id, hy id]
  cases s.winning? id with
  | none => rfl
  | some r => exact h.rowsFor_eq r

end Content

/-- The database has an index as a definition says, but for the checkpoint and the layout, and has these rows for it in
some order. -/
structure Database.Restores (db : Database) (d : Definition) (rows : List (List SqlValue)) : Prop where
  has : db.Has Definition.Retains d
  dump : ∃ found, db.dump d.name = .ok (some found) ∧ found.Perm rows

/-! ## What happens beside the store -/

/-- The updater has fetched a page for an index and has not brought it in. -/
def Updater.HasPage (u : Updater) (index : String) (page : Page) : Prop :=
  u.index = index ∧ ∃ target since, u.phase = .fetched target since page

/-- The page is an answer of the feed, cut at some target. -/
def Store.Gives (s : Store) (page : Page) : Prop :=
  ∃ target since limit, page = Page.cut target limit (s.changesSince since limit)

theorem Store.Gives.latest {s : Store} (hs : s.WellFormed) {page : Page} (h : s.Gives page) :
    ∀ r ∈ page.changes, s.winning? r.docId = some r := by
  obtain ⟨target, since, limit, rfl⟩ := h
  exact fun r hr => hs.winning_of_mem_changesSince (Page.mem_cut_changes.mp hr).1

theorem Updater.gives_of_step {u : Updater} {store : Store} {db : Database} {index : String} {page : Page}
    (h : (u.step store db).1.HasPage index page) : store.Gives page := by
  obtain ⟨_, target, since, hphase⟩ := h
  obtain ⟨name, batchSize, patience, phase⟩ := u
  cases phase with
  | reading target =>
    simp only [step] at hphase
    split at hphase <;> cases hphase
  | ready target since =>
    simp only [step] at hphase
    split at hphase
    · cases hphase
    · obtain ⟨rfl, rfl, rfl⟩ := Phase.fetched.inj hphase
      exact ⟨_, _, _, rfl⟩
  | fetched target since page =>
    simp only [step] at hphase
    split at hphase
    · cases hphase
    · cases hphase
    · split at hphase <;> cases hphase
    · cases hphase
  | finished checkpoint? => cases hphase
  | failed => cases hphase

namespace World

variable {w v : World} {e : Event} {xs : List Content} {x : Content} {d : Definition} {s : Store}

/-- The store is as it was, every index that is there starts where it did or with the store, and whoever has a page had
it before or has it from the store. -/
structure Leaves (w v : World) : Prop where
  store_eq : v.store = w.store
  written_eq : v.written = w.written
  starts : ∀ name, w.isDefined name = true → v.starts name = w.starts name ∨ v.starts name = 0
  pages : ∀ n u, v.updaters n = some u → w.updaters n = some u ∨ ∀ index page, u.HasPage index page → w.store.Gives page

theorem Leaves.changed (result : Except QueryError Database) : w.Leaves (w.changed result) := by
  cases result <;> exact ⟨rfl, rfl, fun _ _ => Or.inl rfl, fun _ _ hu => Or.inl hu⟩

theorem Leaves.setUpdater (n : Nat) {u : Updater} (database : Database)
    (hu : ∀ index page, u.HasPage index page → w.store.Gives page) :
    w.Leaves { w.setUpdater n u with database } := by
  refine ⟨rfl, rfl, fun _ _ => Or.inl rfl, fun m v hv => ?_⟩
  simp only [World.setUpdater] at hv
  split at hv
  · obtain rfl := Option.some.inj hv
    exact Or.inr hu
  · exact Or.inl hv

theorem step_leaves (he : ¬ e.IsWrite) : w.Leaves (w.step e) := by
  have hstay : w.Leaves w := ⟨rfl, rfl, fun _ _ => Or.inl rfl, fun _ _ hu => Or.inl hu⟩
  cases e with
  | ensure spec tokenizer start =>
    simp only [step]
    rcases w.ensure_cases (spec.withDefaultTokenizer tokenizer) start with hsame | ⟨_, _, _, _, _, heq⟩
    · rw [hsame]
      exact hstay
    · rw [heq]
      refine ⟨rfl, rfl, fun name hname => Or.inl ?_, fun _ _ hu => Or.inl hu⟩
      dsimp only
      split
      · rfl
      · rename_i hnew
        refine startsAt_of_not_mem (fun hmem => hnew ?_) start
        rwa [← List.mem_singleton.mp hmem]
  | deleteIndex name => exact .changed _
  | setLayout index version => exact .changed _
  | reopen settings file key? =>
    simp only [step, reopen]
    split
    · refine ⟨rfl, rfl, fun name _ => ?_, fun _ _ hu => Or.inl hu⟩
      by_cases hmem : name ∈ w.outdated
      · exact Or.inr (startsAt_of_mem hmem 0)
      · exact Or.inl (startsAt_of_not_mem hmem 0)
    · exact hstay
  | startUpdate n index batchSize patience =>
    refine .setUpdater n w.database fun _ _ hpage => ?_
    obtain ⟨_, _, _, hphase⟩ := hpage
    cases hphase
  | advance n =>
    simp only [step, advance]
    split
    · exact .setUpdater n _ fun _ _ hpage => Updater.gives_of_step hpage
    · exact hstay
  | fail n =>
    simp only [step]
    split
    · refine .setUpdater n w.database fun _ _ hpage => ?_
      obtain ⟨_, _, _, hphase⟩ := hpage
      cases hphase
    · exact hstay
  | create | update | delete | purge => exact absurd trivial he

/-- What is recorded of an index changes by a deletion, and by pages that fix types, but by nothing else. -/
theorem Sound.step_retains (h : w.Sound xs) (hx : x ∈ xs) (hkeep : e ≠ .deleteIndex x.name)
    (hpages : ∀ n u page, e = .advance n → w.updaters n = some u → u.HasPage x.name page →
      ∀ r ∈ page.changes, r.deleted = false → x.definition.Settles r) :
    (w.step e).database.Has Definition.Retains x.definition := by
  have hstay : w.database.Has Definition.Retains x.definition := h.holds.has hx rfl (.refl _)
  have hchanged : ∀ result : Except QueryError Database,
      (∀ db, result = .ok db → db.Has Definition.Retains x.definition) →
      (w.changed result).database.Has Definition.Retains x.definition := by
    intro result hr
    cases result with
    | ok db => exact hr db rfl
    | error e => exact hstay
  by_cases hwrite : e.IsWrite
  · rw [step_write_database hwrite]
    exact hstay
  cases e with
  | ensure spec tokenizer start =>
    simp only [World.step]
    rcases w.ensure_cases (spec.withDefaultTokenizer tokenizer) start with
      hsame | ⟨database, hvalidate, hsettings, _, hok, heq⟩
    · rw [hsame]
      exact hstay
    · rw [heq]
      exact h.holds.retains_ensure hx
        ⟨hvalidate, hsettings, IndexSpec.withDefaultTokenizer_get? spec tokenizer⟩ hok
  | deleteIndex name =>
    refine hchanged _ fun db hok => h.holds.retains_deleteIndex hx (fun hname => hkeep ?_) hok
    rw [hname]
  | setLayout index version => exact hchanged _ fun db hok => h.holds.retains_setSchemaVersion hx hok
  | reopen settings file key? =>
    simp only [World.step, World.reopen]
    split
    · exact h.holds.retains_openDatabase hx ‹_›
    · exact hstay
  | startUpdate n index batchSize patience => exact hstay
  | advance n =>
    simp only [World.step, World.advance]
    cases hu : w.updaters n with
    | none => exact hstay
    | some u =>
      dsimp only
      rcases u.step_cases w.store w.database with ⟨hsame, _⟩ | ⟨target, since, page, next, hphase, hbatch, hnext, _⟩
      · rw [hsame]
        exact hstay
      · rw [hnext]
        refine h.holds.has_applyBatch Definition.Retains.refl hx (fun hname => ?_) hbatch
        exact Content.retains_apply (hpages n u page rfl hu ⟨hname, target, since, hphase⟩)
  | fail n =>
    simp only [World.step]
    split <;> exact hstay
  | create | update | delete | purge => exact absurd trivial hwrite

/-! ## Stores that forget nothing -/

/-- Every document that was ever written has a latest revision. -/
def Remembers (w : World) : Prop := ∀ r ∈ w.written, ∃ q, w.store.winning? r.docId = some q

theorem Leaves.remembers (h : w.Leaves v) (hw : w.Remembers) : v.Remembers := by
  unfold Remembers
  rw [h.store_eq, h.written_eq]
  exact hw

theorem Remembers.step (h : w.Remembers) (he : ∀ docId, e ≠ .purge docId) : (w.step e).Remembers := by
  by_cases hwrite : e.IsWrite
  · rcases w.step_write_cases hwrite with ⟨docId, rfl⟩ | hsame | ⟨docId, g, deleted, body, hrecorded⟩
    · exact absurd rfl (he docId)
    · rw [hsame]
      exact h
    · rw [hrecorded]
      intro r hr
      have hwinning := Store.winning?_record w.store docId g deleted body r.docId
      change ∃ q, (w.store.record docId g deleted body).2.winning? r.docId = some q
      rw [hwinning]
      split
      · exact ⟨_, rfl⟩
      · rename_i hother
        rcases List.mem_append.mp hr with hr | hr
        · exact h r hr
        · rw [List.mem_singleton.mp hr] at hother
          exact absurd rfl hother
  · exact (step_leaves hwrite).remembers h

theorem Remembers.run (h : w.Remembers) {events : List Event} (he : ∀ docId, .purge docId ∉ events) :
    (w.run events).Remembers := by
  induction events generalizing w with
  | nil => exact h
  | cons e rest ih =>
    refine ih (h.step fun docId heq => ?_) fun docId hmem => he docId (List.mem_cons_of_mem _ hmem)
    exact he docId (by rw [heq]; exact List.mem_cons_self)

theorem Sound.mirrors (h : w.Sound xs) (hw : w.Remembers) (hx : x ∈ xs)
    (hc : w.starts x.name = 0 ∧ x.definition.lastSequence = w.store.sequence) : x.Mirrors w.store := by
  intro id
  cases hr : w.store.winning? id with
  | some r =>
    have hrows := (h.represents hx hc hr).rows_eq
    rwa [h.store.winning_docId hr] at hrows
  | none =>
    refine ((h.follows x hx).single id).resolve_right ?_
    rintro ⟨r, hr', rfl, _⟩
    obtain ⟨q, hq⟩ := hw r hr'
    rw [hr] at hq
    cases hq

theorem Sound.settled (h : w.Sound xs) (hx : x ∈ xs)
    (hc : w.starts x.name = 0 ∧ x.definition.lastSequence = w.store.sequence) : w.store.Settled x.definition :=
  fun _ hr hlive => (h.represents hx hc hr).settles hlive

/-! ## Reading a store anew -/

/-- An index reads a store from the beginning, which stays as it is. What is recorded of the index is kept but for its
checkpoint and its layout, and the pages for it that some updaters have are of latest revisions. -/
structure Rereads (s : Store) (d : Definition) (goes : Nat → Prop) (w : World) : Prop where
  store_eq : w.store = s
  starts_eq : w.starts d.name = 0
  remembers : w.Remembers
  sound : ∃ xs, w.Sound xs
  has : w.database.Has Definition.Retains d
  pages : ∀ n u page, goes n → w.updaters n = some u → u.HasPage d.name page →
    ∀ r ∈ page.changes, s.winning? r.docId = some r

namespace Rereads

variable {goes : Nat → Prop}

theorem exists_content (h : w.Rereads s d goes) :
    ∃ xs x, w.Sound xs ∧ x ∈ xs ∧ x.name = d.name ∧ d.Retains x.definition := by
  obtain ⟨xs, hsound⟩ := h.sound
  obtain ⟨later, hlater, hretains⟩ := h.has
  obtain ⟨x, hx, hname, rfl⟩ := hsound.holds.exists_content hlater
  exact ⟨xs, x, hsound, hx, hname, hretains⟩

theorem step (h : w.Rereads s d goes) (hset : s.Settled d) (he : ¬ e.IsWrite) (hkeep : e ≠ .deleteIndex d.name)
    (hgoes : ∀ n, e = .advance n → goes n) : (w.step e).Rereads s d goes := by
  obtain ⟨xs, x, hsound, hx, hname, hretains⟩ := h.exists_content
  have hleaves := step_leaves (w := w) he
  refine ⟨hleaves.store_eq.trans h.store_eq, ?_, hleaves.remembers h.remembers, ?_, ?_, fun n u page hn hu hpage => ?_⟩
  · rcases hleaves.starts d.name ((hsound.isDefined_iff _).mpr ⟨x, hx, hname⟩) with hsame | hzero
    · rw [hsame]
      exact h.starts_eq
    · exact hzero
  · obtain ⟨ys, hys, _⟩ := hsound.step e
    exact ⟨ys, hys⟩
  · refine Database.Has.of_retains hretains (hsound.step_retains hx ?_ ?_)
    · rw [hname]
      exact hkeep
    · intro n u page heq hu hpage r hr hlive
      rw [hname] at hpage
      exact hretains.settles (hset r (h.pages n u page (hgoes n heq) hu hpage r hr) hlive)
  · rcases hleaves.pages n u hu with hold | hnew
    · exact h.pages n u page hn hold hpage
    · rw [← h.store_eq]
      exact (hnew _ _ hpage).latest hsound.store

theorem run (h : w.Rereads s d goes) (hset : s.Settled d) {events : List Event}
    (he : ∀ e ∈ events, ¬ e.IsWrite ∧ e ≠ .deleteIndex d.name) (hgoes : ∀ n, .advance n ∈ events → goes n) :
    (w.run events).Rereads s d goes := by
  induction events generalizing w with
  | nil => exact h
  | cons e rest ih =>
    obtain ⟨hwrite, hkeep⟩ := he e List.mem_cons_self
    have hstep := h.step hset hwrite hkeep fun n heq => hgoes n (by rw [heq]; exact List.mem_cons_self)
    exact ih hstep (fun e' he' => he e' (List.mem_cons_of_mem _ he')) fun n hn => hgoes n (List.mem_cons_of_mem _ hn)

theorem batch (h : w.Rereads s d goes) (hset : s.Settled d) (batchSize : Nat) :
    Rereads s d goes { w with database := w.database.batch w.store batchSize d.name } := by
  obtain ⟨xs, x, hsound, hx, hname, hretains⟩ := h.exists_content
  have hleads : w.database.LeadsTo w.store (x.caughtUp w.store) xs x := ⟨hsound.holds, hx, rfl⟩
  rw [← hname, ← Content.caughtUp_name w.store x]
  rcases Int.lt_or_le x.definition.lastSequence w.store.sequence with hlt | hle
  · obtain ⟨_, hnext⟩ := hleads.applyBatch hsound.store hlt batchSize rfl
    obtain ⟨_, hcovers, hchanges⟩ := hsound.fetch hlt (Int.le_refl _) batchSize
    refine ⟨h.store_eq, h.starts_eq, h.remembers, ⟨_, hsound.applied hx hcovers hchanges hnext.holds⟩, ?_, h.pages⟩
    refine hnext.holds.has hnext.mem ((Content.apply_name x _).trans hname)
      (hretains.trans (Content.retains_apply fun r hr hlive => ?_))
    refine hretains.settles (hset r ?_ hlive)
    rw [← h.store_eq]
    exact Store.Gives.latest hsound.store ⟨_, _, _, rfl⟩ r hr
  · rw [hleads.batch_of_le hle batchSize]
    exact h

theorem batches (h : w.Rereads s d goes) (hset : s.Settled d) (a : Attempt) (n : Nat) :
    (a.batches d.name w n).Rereads s d goes := by
  induction n with
  | zero => exact h
  | succ n ih =>
    have hnext := ih.batch hset a.batchSize
    unfold Attempt.batches at hnext ⊢
    rw [Function.iterate_succ_apply']
    exact hnext

theorem exists_leadsTo (h : w.Rereads s d goes) :
    ∃ goal xs x, goal.name = d.name ∧ w.store.WellFormed ∧ w.database.LeadsTo w.store goal xs x := by
  obtain ⟨xs, x, hsound, hx, hname, _⟩ := h.exists_content
  exact ⟨x.caughtUp w.store, xs, x, (Content.caughtUp_name w.store x).trans hname, hsound.store, hsound.holds, hx, rfl⟩

theorem outcome (h : w.Rereads s d goes) (hset : s.Settled d) (a : Attempt) :
    (a.outcome d.name w).2.world.Rereads s d goes := by
  obtain ⟨goal, xs, x, hgoal, hs, hleads⟩ := h.exists_leadsTo
  obtain ⟨n, hworld⟩ := a.exists_batches hs hleads
  rw [← hgoal, hworld, hgoal]
  exact h.batches hset a n

theorem attempted (h : w.Rereads s d goes) (hset : s.Settled d) (attempts : List Attempt) :
    (w.attempted d.name attempts).Rereads s d goes := by
  induction attempts generalizing w with
  | nil => exact h
  | cons a rest ih => exact ih (h.outcome hset a)

theorem sequence_le_of_ok (h : w.Rereads s d goes) {a : Attempt} {c? : Option Int}
    (hok : (a.outcome d.name w).1 = .ok c?) :
    ∀ now, (a.outcome d.name w).2.world.database.definition? d.name = .ok (some now) →
      s.sequence ≤ now.lastSequence := by
  obtain ⟨goal, xs, x, hgoal, hs, hleads⟩ := h.exists_leadsTo
  intro now hnow
  rw [← hgoal] at hok hnow
  obtain ⟨_, hle, _, ys, hafter⟩ := Attempt.leadsTo_of_ok hs hleads hok
  rw [hafter.holds.definition? hafter.mem] at hnow
  rw [← Option.some.inj (Except.ok.inj hnow), ← h.store_eq]
  exact hle

theorem restores (h : w.Rereads s x.definition goes) (hx : x.Mirrors s)
    (hcaught : ∀ now, w.database.definition? x.name = .ok (some now) → s.sequence ≤ now.lastSequence) :
    w.database.Restores x.definition (x.rows.map Table.cells) := by
  obtain ⟨xs, y, hsound, hy, hname, hretains⟩ := h.exists_content
  have hname : y.name = x.name := hname
  have hle := hcaught y.definition (by rw [← hname]; exact hsound.holds.definition? hy)
  rw [← h.store_eq] at hx hle
  have hstart : w.starts y.name = 0 := by
    rw [hname]
    exact h.starts_eq
  have hcheckpoint := Int.le_antisymm (hsound.follows y hy).checkpoint_le hle
  have hdump := hsound.holds.dump hy
  rw [hname] at hdump
  have hmirrors := hsound.mirrors h.remembers hy ⟨hstart, hcheckpoint⟩
  exact ⟨h.has, _, hdump, (hx.perm hmirrors hretains).map _⟩

end Rereads

/-- The index is there as it was, but for the checkpoint and the layout, and has its rows again when it has come to the
sequence of the store. Every update comes there that succeeds, whatever updates have failed before, and one succeeds
that has all its requests answered. -/
structure Recovers (w : World) (d : Definition) (rows : List (List SqlValue)) : Prop where
  has : w.database.Has Definition.Retains d
  restored : ∀ now, w.database.definition? d.name = .ok (some now) → w.store.sequence ≤ now.lastSequence →
    w.database.Restores d rows
  updated : ∀ (attempts : List Attempt) (a : Attempt) c?, (a.outcome d.name (w.attempted d.name attempts)).1 = .ok c? →
    (a.outcome d.name (w.attempted d.name attempts)).2.world.database.Restores d rows
  answered : ∀ (attempts : List Attempt) (a : Attempt), (∀ f? ∈ a.failures, f? = none) →
    ∃ c?, (a.outcome d.name (w.attempted d.name attempts)).1 = .ok c?

theorem Rereads.recovers {goes : Nat → Prop} (h : w.Rereads s x.definition goes) (hset : s.Settled x.definition)
    (hx : x.Mirrors s) : w.Recovers x.definition (x.rows.map Table.cells) where
  has := h.has
  restored now hnow hle := h.restores hx fun later hlater => by
    rw [← h.store_eq]
    rw [show w.database.definition? x.name = .ok (some now) from hnow] at hlater
    rwa [← Option.some.inj (Except.ok.inj hlater)]
  updated attempts _ _ hok :=
    ((h.attempted hset attempts).outcome hset _).restores hx ((h.attempted hset attempts).sequence_le_of_ok hok)
  answered attempts _ hanswered := by
    obtain ⟨goal, xs, y, hgoal, hs, hleads⟩ := (h.attempted hset attempts).exists_leadsTo
    rw [← hgoal] at hs hleads ⊢
    exact Attempt.exists_ok hs hleads hanswered

/-- An index that has read all of a store that forgets nothing recovers after the database was opened anew, whatever
else is done meanwhile. -/
theorem Sound.recovers (h : w.Sound xs) (hw : w.Remembers) (hx : x ∈ xs)
    (hc : w.starts x.name = 0 ∧ x.definition.lastSequence = w.store.sequence) {settings : ConnectionSettings}
    {file : FileState} {key? : Option EncryptionKey} {later : List Event}
    (he : ∀ e ∈ later, ¬ e.IsWrite ∧ e ≠ .deleteIndex x.name)
    (hfresh : ∀ n u page, .advance n ∈ later → w.updaters n = some u → ¬ u.HasPage x.name page) :
    ((w.step (.reopen settings file key?)).run later).Recovers x.definition (x.rows.map Table.cells) := by
  have hset := h.settled hx hc
  have hbegin : w.Rereads w.store x.definition fun n => .advance n ∈ later := by
    refine ⟨rfl, hc.1, hw, ⟨xs, h⟩, h.holds.has hx rfl (.refl _), fun n u page hn hu hpage => ?_⟩
    exact absurd hpage (hfresh n u page hn hu)
  have hopened := hbegin.step (e := .reopen settings file key?) hset id nofun nofun
  exact (hopened.run hset he fun _ hn => hn).recovers hset (h.mirrors hw hx hc)

/-- A database that was used in any way is opened if there is a connection. Indexes of the current layout stay as they
are, and those of an older one have empty tables, begin at 0 in the current layout, and keep what else is recorded of
them. To open the database once more changes nothing. An index that had read all of a store without purges has its types
all the time and, when it has read the store anew, its rows. -/
theorem run_rebuilds (events : List Event) {settings : ConnectionSettings} {file : FileState}
    {key? : Option EncryptionKey} {connection : Connection}
    (hopen : Connection.open? settings file key? = .ok connection) :
    ∃ ds next, (run {} events).database.definitions = .ok ds ∧
      Manager.openDatabase settings file key? (run {} events).database = .ok next ∧
      (run {} events).database.Upgrades next ds ∧
      (∀ settings' file' key?' connection', Connection.open? settings' file' key?' = .ok connection' →
        Manager.openDatabase settings' file' key?' next = .ok next) ∧
      ∀ d ∈ ds, (∀ docId, .purge docId ∉ events) → (run {} events).starts d.name = 0 →
        d.lastSequence = (run {} events).store.sequence →
        ∃ rows, (run {} events).database.dump d.name = .ok (some rows) ∧
          ∀ later : List Event, (∀ e ∈ later, ¬ e.IsWrite ∧ e ≠ .deleteIndex d.name) →
            (∀ n u page, .advance n ∈ later → (run {} events).updaters n = some u → ¬ u.HasPage d.name page) →
            (((run {} events).step (.reopen settings file key?)).run later).Recovers d rows := by
  obtain ⟨xs, hrenews⟩ := renewable_run events
  obtain ⟨ys, hsound⟩ := Sound.empty.run events
  have hds := hrenews.holds.definitions
  obtain ⟨next, hnext, hrenewed, hremade⟩ := hrenews.exists_openDatabase hds hopen
  have hupgrades := hrenews.withSchema.upgrades hds hrenewed.holds hremade
  refine ⟨_, next, hds, hnext, ⟨hupgrades.definitions_eq, hupgrades.kept, hupgrades.emptied⟩,
    fun settings' file' key?' connection' hopen' => ?_, fun d hd hpurge hstart hcheckpoint => ?_⟩
  · refine hrenewed.openDatabase_again hremade.schema_eq hupgrades.definitions_eq (fun d hd => ?_) hopen'
    obtain ⟨d, _, rfl⟩ := List.mem_map.mp hd
    exact d.upgraded_current
  · -- the invariant of runs tells of contents of its own, which the definitions tell to be the same
    rw [hsound.holds.definitions] at hds
    rw [← Except.ok.inj hds] at hd
    obtain ⟨x, hx, rfl⟩ := Database.mem_sorted_iff.mp hd
    have hremembers : (run {} events).Remembers := Remembers.run (w := {}) (by simp [Remembers]) hpurge
    exact ⟨_, hsound.holds.dump hx, fun later he hfresh =>
      hsound.recovers hremembers hx ⟨hstart, hcheckpoint⟩ he hfresh⟩

/-- A run in which the first value of a field fixes its type and a value of another type comes after it. The index has
read both when it is found to be of an older layout. -/
def retyped : List Event :=
  [.ensure { name := "ages", fields := [{ path := "age" }] } "" 0, .create "ann" [("age", .number (.int 40))],
    .startUpdate 0 "ages" 10 0, .advance 0, .advance 0, .advance 0, .update "ann" "1-000001" [("age", .string "forty")],
    .startUpdate 0 "ages" 10 0, .advance 0, .advance 0, .advance 0, .setLayout "ages" 1]

def agesRetyped : Definition :=
  { name := "ages", kind := .value, fields := [{ path := "age", type? := some .number }], schemaVersion := 1,
    lastSequence := 2 }

def again : List Event := [.startUpdate 1 "ages" 10 0, .advance 1, .advance 1, .advance 1]

/-- The string, which would fix the type if it was not recorded, still finds the type that the number has fixed. -/
theorem run_rebuilds_retyped :
    ∃ next, Manager.openDatabase {} .absent none (run {} retyped).database = .ok next ∧
      next.definitions = .ok [{ agesRetyped with schemaVersion := currentLayout, lastSequence := 0 }] ∧
      next.dump "ages" = .ok (some []) ∧ Manager.openDatabase {} .absent none next = .ok next ∧
      (((run {} retyped).step (.reopen {} .absent none)).run again).database.Restores agesRetyped
        [[.text "ann", .text "2-000002", .null]] := by
  have hopen : Connection.open? {} .absent none = .ok _ := rfl
  obtain ⟨ds, next, hds, hnext, hupgrades, hagain, hrecovers⟩ := run_rebuilds retyped hopen
  have hlist : (run {} retyped).database.definitions.toOption = some [agesRetyped] := by decide +kernel
  rw [hds] at hlist
  obtain rfl : ds = [agesRetyped] := Option.some.inj hlist
  obtain ⟨rows, hrows, hlater⟩ := hrecovers agesRetyped (List.mem_singleton_self _) (by simp [retyped])
    (by decide +kernel) (by decide +kernel)
  have hfound : ((run {} retyped).database.dump "ages").toOption =
      some (some [[.text "ann", .text "2-000002", .null]]) := by decide +kernel
  rw [show (run {} retyped).database.dump "ages" = .ok (some rows) from hrows] at hfound
  obtain rfl : rows = [[.text "ann", .text "2-000002", .null]] := Option.some.inj (Option.some.inj hfound)
  have hrecovered := hlater again (by simp [again, Event.IsWrite]) (by
    intro n u page hn hu
    obtain rfl : n = 1 := by simpa [again] using hn
    rw [show (run {} retyped).updaters 1 = none from by rfl] at hu
    cases hu)
  refine ⟨next, hnext, hupgrades.definitions_eq, (hupgrades.emptied _ (List.mem_singleton_self _) (by decide)).2,
    hagain _ _ _ _ hopen, hrecovered.restored { agesRetyped with schemaVersion := currentLayout } ?_ ?_⟩
  · exact ok_of_toOption (by decide +kernel)
  · decide +kernel

end World

end DocIndex
