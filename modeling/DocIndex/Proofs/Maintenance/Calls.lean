import DocIndex.Proofs.Database.Orderly
import DocIndex.Proofs.Maintenance.CatchUp
import DocIndex.Proofs.Maintenance.World

/-! # Calls that keep a database orderly

Managers declare and delete indexes, bring them up to date, answer queries and are opened anew, while others do the
same and write to the store. Every call leaves the database orderly, however it ends. A declaration or a deletion that
fails changes nothing, and one that succeeds changes nothing of any other index.
-/

namespace DocIndex

/-! ## What others do -/

/-- The event deletes no index but those that may go. -/
def Event.DeletesOnly (mayGo : String → Prop) : Event → Prop
  | .deleteIndex name => mayGo name
  | _ => True

namespace World

variable {w : World} {p : Database → Prop} {mayGo : String → Prop}

theorem step_write_database {e : Event} (he : e.IsWrite) : (w.step e).database = w.database := by
  rcases w.step_write_cases he with ⟨docId, rfl⟩ | hsame | ⟨docId, g, deleted, body, hrecorded⟩
  · rfl
  · rw [hsame]
  · rw [hrecorded]
    rfl

theorem run_write_database {events : List Event} (he : ∀ e ∈ events, e.IsWrite) :
    (w.run events).database = w.database := by
  induction events generalizing w with
  | nil => rfl
  | cons e rest ih =>
    have hrest := @ih (w.step e) fun e' he' => he e' (List.mem_cons_of_mem _ he')
    exact hrest.trans (step_write_database (he e List.mem_cons_self))

theorem changed_keeps {result : Except QueryError Database} (h : p w.database)
    (hr : ∀ db, result = .ok db → p db) : p (w.changed result).database := by
  cases result with
  | ok db => exact hr db rfl
  | error e => exact h

theorem ensure_keeps (hp : Database.Kept p mayGo) (h : p w.database) (spec : IndexSpec) (tokenizer : String)
    (start : Int) : p (w.ensure (spec.withDefaultTokenizer tokenizer) start).database := by
  rcases w.ensure_cases (spec.withDefaultTokenizer tokenizer) start with hsame | ⟨_, hvalidate, hsettings, _, hok, heq⟩
  · rw [hsame]
    exact h
  · rw [heq]
    exact hp.ensure h ⟨hvalidate, hsettings, IndexSpec.withDefaultTokenizer_get? spec tokenizer⟩ hok

theorem step_keeps (hp : Database.Kept p mayGo) (h : p w.database) {e : Event} (he : e.DeletesOnly mayGo) :
    p (w.step e).database := by
  by_cases hwrite : e.IsWrite
  · rw [step_write_database hwrite]
    exact h
  cases e with
  | ensure spec tokenizer start => exact ensure_keeps hp h spec tokenizer start
  | deleteIndex name => exact changed_keeps h fun _ hok => hp.deleteIndex he h hok
  | setLayout index version => exact changed_keeps h fun _ hok => hp.setSchemaVersion h hok
  | reopen settings file key? =>
    simp only [step, World.reopen]
    split
    · exact hp.openDatabase h ‹_›
    · exact h
  | startUpdate n index batchSize patience => exact h
  | advance n =>
    simp only [step, World.advance]
    split
    · rename_i u _
      rcases u.step_cases w.store w.database with ⟨hsame, _⟩ | ⟨_, since, page, next, _, hbatch, hnext, _⟩
      · rw [hsame]
        exact h
      · rw [hnext]
        exact hp.applyBatch h hbatch
    · exact h
  | fail n =>
    simp only [step]
    split <;> exact h
  | create | update | delete | purge => exact absurd trivial hwrite

theorem run_keeps (hp : Database.Kept p mayGo) (h : p w.database) {events : List Event}
    (he : ∀ e ∈ events, e.DeletesOnly mayGo) : p (w.run events).database := by
  induction events generalizing w with
  | nil => exact h
  | cons e rest ih =>
    exact ih (step_keeps hp h (he e List.mem_cons_self)) fun e' he' => he e' (List.mem_cons_of_mem _ he')

end World

theorem Event.deletesOnly_true (e : Event) : e.DeletesOnly fun _ => True := by cases e <;> trivial

theorem World.orderly_run {w : World} (h : w.database.Orderly) (events : List Event) :
    (w.run events).database.Orderly := run_keeps Database.Orderly.kept h fun e _ => e.deletesOnly_true

/-! ## What a call keeps -/

namespace Action

variable {σ α β : Type} {p : σ → Prop} {bad : QueryError → σ → Prop} {h : Host σ}

/-- What holds before an action holds after it if it succeeds, and something else if it fails. -/
def Leads (p : σ → Prop) (bad : QueryError → σ → Prop) (a : Action σ α) : Prop :=
  ∀ s, p s → After a s (fun _ => p) bad

/-- What holds before an action holds after it, whether it succeeds or fails. -/
def Keeps (p : σ → Prop) (a : Action σ α) : Prop := a.Leads p fun _ => p

theorem Leads.bind {a : Action σ α} {f : α → Action σ β} (ha : a.Leads p bad) (hf : ∀ v, (f v).Leads p bad) :
    (a >>= f).Leads p bad :=
  fun s hs => after_bind ((ha s hs).mono (fun v t ht => hf v t ht) fun _ _ he => he)

theorem leads_pure (v : α) : (pure v : Action σ α).Leads p bad := fun _ hs => hs

theorem leads_throw {e : QueryError} (he : ∀ s, p s → bad e s) : (throw e : Action σ α).Leads p bad :=
  fun s hs => he s hs

theorem Keeps.bind {a : Action σ α} {f : α → Action σ β} (ha : a.Keeps p) (hf : ∀ v, (f v).Keeps p) :
    (a >>= f).Keeps p := Leads.bind ha hf

theorem keeps_pure (v : α) : (pure v : Action σ α).Keeps p := leads_pure v

theorem keeps_throw (e : QueryError) : (throw e : Action σ α).Keeps p := leads_throw fun _ hs => hs

theorem keeps_lift (result : Except QueryError α) : (liftM result : Action σ α).Keeps p := by
  intro s hs
  cases result with
  | ok v => exact hs
  | error e => exact hs

theorem leads_look (h : Host σ) {read : Database → Except QueryError α}
    (hr : ∀ s e, p s → read (h.database s) = .error e → bad e s) : (h.look read).Leads p bad := by
  intro s hs
  unfold After Host.look
  cases hread : read (h.database s) with
  | ok v => exact hs
  | error e => exact hr s e hs hread

theorem keeps_look (h : Host σ) (read : Database → Except QueryError α) : (h.look read).Keeps p :=
  leads_look h fun _ _ hs _ => hs

theorem leads_ask {request : σ → Except StoreError α × σ} (hr : ∀ s, p s → p (request s).2)
    (hbad : ∀ e s, p s → bad (.store e) s) : (Host.ask request).Leads p bad := by
  intro s hs
  have ht := hr s hs
  refine after_ask ?_
  rcases hrequest : request s with ⟨r, t⟩
  rw [hrequest] at ht
  cases r with
  | ok v => exact ht
  | error e => exact hbad e t ht

theorem keeps_ask {request : σ → Except StoreError α × σ} (hr : ∀ s, p s → p (request s).2) :
    (Host.ask request).Keeps p := leads_ask hr fun _ _ hs => hs

theorem after_transact {change : Database → Except QueryError Database} {s : σ} {good : Unit → σ → Prop}
    {bad : QueryError → σ → Prop} (hgood : ∀ db, change (h.database s) = .ok db → good () (h.setDatabase db s))
    (hbad : ∀ e, change (h.database s) = .error e → bad e s) : After (h.transact change) s good bad := by
  unfold After Host.transact
  cases hchange : change (h.database s) with
  | ok db => exact hgood db hchange
  | error e => exact hbad e hchange

theorem keeps_transact {change : Database → Except QueryError Database}
    (hc : ∀ s db, p s → change (h.database s) = .ok db → p (h.setDatabase db s)) : (h.transact change).Keeps p :=
  fun s hs => after_transact (fun db hchange => hc s db hs hchange) fun _ _ => hs

end Action

/-- The steps of an update keep a property of the world, or end in a failure of some kind. -/
structure Host.Guards {σ : Type} (h : Host σ) (p : σ → Prop) (bad : QueryError → σ → Prop) : Prop where
  currentSequence : (Host.ask h.currentSequence).Leads p bad
  changesSince : ∀ since limit, (Host.ask (h.changesSince since limit)).Leads p bad
  definitions : (h.look Database.definitions).Leads p bad
  checkpoint : ∀ index, (h.look fun db => Database.lift (db.catalog.lastSequence? index)).Leads p bad
  applyPage : ∀ index since page, (Update.applyPage h index since page).Leads p bad
  unsettled : ∀ index s, p s → bad (.unsettled index) s

namespace Update

open DocIndex.Action

variable {σ : Type} {h : Host σ} {p : σ → Prop} {bad : QueryError → σ → Prop} {index : String} {batchSize : Nat}
variable {target : Int}

theorem leads_catchUp (hg : h.Guards p bad) (fuel : Nat) (since : Int) :
    (catchUp h index batchSize target fuel since).Leads p bad := by
  induction fuel generalizing since with
  | zero =>
    unfold catchUp
    split
    · exact leads_pure _
    · exact leads_throw (hg.unsettled index)
  | succ fuel ih =>
    unfold catchUp
    split
    · exact leads_pure _
    · have hadvance : (advance h index batchSize target since).Leads p bad :=
        (hg.changesSince since batchSize).bind fun fetched => hg.applyPage index since _
      refine hadvance.bind fun progress => ?_
      cases progress with
      | reached checkpoint => exact ih checkpoint
      | vanished => exact leads_pure _
      | moved checkpoint => exact leads_pure _

theorem leads_settle (hg : h.Guards p bad) (patience : Nat) (since : Int) :
    (settle h index batchSize target patience since).Leads p bad := by
  induction patience generalizing since with
  | zero =>
    unfold settle
    refine (leads_catchUp hg _ since).bind fun progress => ?_
    cases progress with
    | reached checkpoint => exact leads_pure _
    | vanished => exact leads_pure _
    | moved checkpoint => exact leads_throw (hg.unsettled index)
  | succ patience ih =>
    unfold settle
    refine (leads_catchUp hg _ since).bind fun progress => ?_
    cases progress with
    | reached checkpoint => exact leads_pure _
    | vanished => exact leads_pure _
    | moved checkpoint => exact ih checkpoint

theorem leads_updateIndex (hg : h.Guards p bad) (index : String) :
    (updateIndex h batchSize index).Leads p bad := by
  unfold updateIndex
  refine hg.currentSequence.bind fun target => (hg.checkpoint index).bind fun checkpoint? => ?_
  cases checkpoint? with
  | none => exact leads_pure _
  | some since => exact leads_settle hg _ since

theorem leads_updateEach (hg : h.Guards p bad) (names : List String) :
    (updateEach h batchSize names).Leads p bad := by
  induction names with
  | nil => exact leads_pure _
  | cons index rest ih => exact (leads_updateIndex hg index).bind fun _ => ih

theorem leads_updateAll (hg : h.Guards p bad) : (updateAll h batchSize).Leads p bad :=
  hg.definitions.bind fun _ => leads_updateEach hg _

end Update

/-- The requests of a host keep a property of the world, and so does a page that is applied. -/
structure Host.Preserves {σ : Type} (h : Host σ) (p : σ → Prop) : Prop where
  currentSequence : ∀ s, p s → p (h.currentSequence s).2
  changesSince : ∀ since limit s, p s → p (h.changesSince since limit s).2
  applyBatch : ∀ s index since (page : Page) db, p s →
    (h.database s).applyBatch index since page.changes page.checkpoint = .ok (.applied db) → p (h.setDatabase db s)

theorem Host.Preserves.guards {σ : Type} {h : Host σ} {p : σ → Prop} (hp : h.Preserves p) :
    h.Guards p fun _ => p where
  currentSequence := Action.keeps_ask hp.currentSequence
  changesSince since limit := Action.keeps_ask (hp.changesSince since limit)
  definitions := Action.keeps_look h _
  checkpoint _ := Action.keeps_look h _
  applyPage index since page := by
    intro s hs
    unfold Action.After Update.applyPage
    cases hbatch : (h.database s).applyBatch index since page.changes page.checkpoint with
    | error e => exact hs
    | ok outcome =>
      cases outcome with
      | applied db => exact hp.applyBatch s index since page db hs hbatch
      | vanished => exact hs
      | moved checkpoint => exact hs
  unsettled _ _ hs := hs

namespace Update

variable {σ : Type} {h : Host σ} {p : σ → Prop} {batchSize : Nat}

theorem keeps_updateIndex (hp : h.Preserves p) (index : String) : (updateIndex h batchSize index).Keeps p :=
  leads_updateIndex hp.guards index

theorem keeps_updateAll (hp : h.Preserves p) : (updateAll h batchSize).Keeps p := leads_updateAll hp.guards

end Update

namespace Manager

open DocIndex.Action

variable {σ : Type} {m : Manager σ} {p : σ → Prop}

theorem keeps_updateIndex (hp : m.host.Preserves p) (index : String) : (m.updateIndex index).Keeps p := by
  unfold updateIndex
  refine (Update.keeps_updateIndex hp index).bind fun checkpoint? => ?_
  cases checkpoint? with
  | some checkpoint => exact keeps_pure _
  | none => exact keeps_throw _

theorem keeps_plan (m : Manager σ) (selector : Selector) (sort : List SortKey) : (m.plan selector sort).Keeps p :=
  (keeps_look _ _).bind fun _ => keeps_lift _

theorem keeps_run (m : Manager σ) (q : Query) (plan : Plan) : (m.run q plan).Keeps p :=
  (keeps_lift _).bind fun _ => (keeps_lift _).bind fun _ => (keeps_look _ _).bind fun _ => keeps_pure _

theorem keeps_find (hp : m.host.Preserves p) (q : Query) : (m.find q).Keeps p := by
  unfold find
  refine (keeps_lift _).bind fun selector => (keeps_lift _).bind fun _ => ?_
  refine (keeps_plan m selector q.sort).bind fun first => (keeps_look _ _).bind fun _ => ?_
  split
  · exact (Update.keeps_updateAll hp).bind fun _ =>
      (keeps_plan m selector q.sort).bind fun second => keeps_run m q second
  · exact keeps_run m q first

/-- A declaration checks its request, asks the store for its sequence if it needs that, and then either changes the
database once or fails. -/
theorem after_ensure (m : Manager σ) (spec : IndexSpec) (s : σ) :
    After (m.ensure spec) s
      (fun _ u => (spec.withDefaultTokenizer m.settings.defaultTokenizer).validate = .ok () ∧
        ∃ t start db, (t = s ∨ t = (m.host.currentSequence s).2) ∧
          (m.host.database t).ensure (spec.withDefaultTokenizer m.settings.defaultTokenizer) start = .ok db ∧
          u = m.host.setDatabase db t)
      fun _ u => u = s ∨ u = (m.host.currentSequence s).2 := by
  have hstart : After m.startSequence s (fun _ t => t = s ∨ t = (m.host.currentSequence s).2)
      fun _ t => t = s ∨ t = (m.host.currentSequence s).2 := by
    unfold startSequence
    split
    · exact after_pure (Or.inl rfl)
    · refine after_ask ?_
      rcases m.host.currentSequence s with ⟨r, t⟩
      cases r <;> exact Or.inr rfl
  unfold ensure
  cases hvalidate : (spec.withDefaultTokenizer m.settings.defaultTokenizer).validate with
  | error e =>
    refine after_bind ?_
    rw [hvalidate]
    exact Or.inl rfl
  | ok u =>
    refine after_bind (after_lift hvalidate ?_)
    dsimp only
    split
    · exact after_bind (Or.inl rfl)
    · refine after_bind (hstart.mono ?_ fun _ _ he => he)
      intro start t ht
      exact after_bind (after_transact (fun db hok => ⟨rfl, t, start, db, ht, hok, rfl⟩) fun _ _ => ht)

end Manager

end DocIndex
