import DocIndex.Proofs.Maintenance.Turns

/-! # Updaters and calls

An updater acts in steps that the events of a world call up one by one; a call makes its requests itself, and others
act around each of them. Both tell the same: an updater that is stepped to its end is a call that updates the index,
and whatever others do between two of its steps, they do around the requests of the call.
-/

namespace DocIndex

namespace Event

def updater? : Event → Option Nat
  | .startUpdate n .. | .advance n | .fail n => some n
  | _ => none

def ofOthers (n : Nat) (events : List Event) : List Event := events.filter (·.updater? != some n)

/-- The events do not start the updater anew. -/
def GoOn (n : Nat) (events : List Event) : Prop :=
  ∀ e ∈ events, e.updater? = some n → e = .advance n ∨ e = .fail n

variable {n : Nat} {e : Event} {front rest : List Event}

theorem ofOthers_append (n : Nat) (front rest : List Event) :
    ofOthers n (front ++ rest) = ofOthers n front ++ ofOthers n rest := List.filter_append _ _

theorem ofOthers_eq_self (h : ∀ e ∈ front, e.updater? ≠ some n) : ofOthers n front = front := by
  rw [ofOthers, List.filter_eq_self]
  exact fun e he => bne_iff_ne.mpr (h e he)

theorem ofOthers_cons_of_eq (h : e.updater? = some n) (rest : List Event) :
    ofOthers n (e :: rest) = ofOthers n rest := List.filter_cons_of_neg (by simp [h])

theorem ofOthers_cons_of_ne (h : e.updater? ≠ some n) (rest : List Event) :
    ofOthers n (e :: rest) = e :: ofOthers n rest := List.filter_cons_of_pos (bne_iff_ne.mpr h)

end Event

def Phase.IsEnded : Phase → Prop
  | .finished _ | .failed => True
  | .reading _ | .ready .. | .fetched .. => False

namespace World

def without (w : World) (n : Nat) : World := { w with updaters := fun m => if m = n then none else w.updaters m }

variable {w : World} {n : Nat} {u : Updater} {e : Event} {events : List Event}

theorem without_setUpdater (w : World) (n : Nat) (u : Updater) : (w.setUpdater n u).without n = w.without n := by
  unfold without setUpdater
  congr 1
  funext m
  by_cases hm : m = n <;> simp [hm]

theorem without_setUpdater_of_ne {m : Nat} (h : m ≠ n) (w : World) (u : Updater) :
    (w.setUpdater m u).without n = (w.without n).setUpdater m u := by
  unfold without setUpdater
  congr 1
  funext k
  by_cases hk : k = n
  · have hne : n ≠ m := h.symm
    simp [hk, hne]
  · simp [hk]

theorem without_ensure (w : World) (n : Nat) (spec : IndexSpec) (start : Int) :
    (w.ensure spec start).without n = (w.without n).ensure spec start := by
  have hdatabase : (w.without n).database = w.database := rfl
  unfold World.ensure
  rw [apply_ite (without · n), hdatabase]
  refine if_congr Iff.rfl ?_ rfl
  cases w.database.ensure spec start <;> rfl

theorem step_of_others (w : World) (he : e.updater? ≠ some n) :
    (w.step e).without n = (w.without n).step e ∧ (w.step e).updaters n = w.updaters n := by
  have hwrote : ∀ result : Except StoreError (Revision × Store),
      (w.wrote result).without n = (w.without n).wrote result ∧ (w.wrote result).updaters n = w.updaters n := by
    intro result
    cases result <;> exact ⟨rfl, rfl⟩
  have hchanged : ∀ result : Except QueryError Database,
      (w.changed result).without n = (w.without n).changed result ∧ (w.changed result).updaters n = w.updaters n := by
    intro result
    cases result <;> exact ⟨rfl, rfl⟩
  cases e with
  | create docId body => exact hwrote _
  | update docId revId body => exact hwrote _
  | delete docId revId => exact hwrote _
  | purge docId => exact ⟨rfl, rfl⟩
  | ensure spec tokenizer start =>
    refine ⟨without_ensure _ _ _ _, ?_⟩
    rcases w.ensure_cases (spec.withDefaultTokenizer tokenizer) start with hsame | ⟨_, _, _, _, _, hdeclared⟩
    · rw [step, hsame]
    · rw [step, hdeclared]
  | deleteIndex name => exact hchanged _
  | setLayout index version => exact hchanged _
  | reopen settings file key? =>
    simp only [step, World.reopen, without]
    split <;> exact ⟨rfl, rfl⟩
  | startUpdate m index batchSize patience =>
    have hm : m ≠ n := fun h => he (congrArg some h)
    exact ⟨without_setUpdater_of_ne hm w _, if_neg hm.symm⟩
  | advance m =>
    have hm : m ≠ n := fun h => he (congrArg some h)
    have hsame : (w.without n).updaters m = w.updaters m := if_neg hm
    simp only [step, World.advance, hsame]
    cases w.updaters m with
    | none => exact ⟨rfl, rfl⟩
    | some v =>
      exact ⟨congrArg (fun x : World => { x with database := (v.step w.store w.database).2 })
        (without_setUpdater_of_ne hm w _), if_neg hm.symm⟩
  | fail m =>
    have hm : m ≠ n := fun h => he (congrArg some h)
    have hsame : (w.without n).updaters m = w.updaters m := if_neg hm
    simp only [step, hsame]
    cases w.updaters m with
    | none => exact ⟨rfl, rfl⟩
    | some v => exact ⟨without_setUpdater_of_ne hm w _, if_neg hm.symm⟩

theorem run_of_others (w : World) (h : ∀ e ∈ events, e.updater? ≠ some n) :
    (w.run events).without n = (w.without n).run events ∧ (w.run events).updaters n = w.updaters n := by
  induction events generalizing w with
  | nil => exact ⟨rfl, rfl⟩
  | cons e rest ih =>
    obtain ⟨hwithout, hupdater⟩ := w.step_of_others (h e List.mem_cons_self)
    obtain ⟨hrest, hlast⟩ := ih (w.step e) fun x hx => h x (List.mem_cons_of_mem _ hx)
    exact ⟨hrest.trans (congrArg (run · rest) hwithout), hlast.trans hupdater⟩

theorem step_advance (hu : w.updaters n = some u) :
    (w.step (.advance n)).without n = { w.without n with database := (u.step w.store w.database).2 } ∧
      (w.step (.advance n)).updaters n = some (u.step w.store w.database).1 := by
  simp only [step, World.advance, hu]
  refine ⟨?_, if_pos rfl⟩
  exact congrArg (fun x : World => { x with database := (u.step w.store w.database).2 }) (without_setUpdater w n _)

theorem step_fail (hu : w.updaters n = some u) :
    (w.step (.fail n)).without n = w.without n ∧
      (w.step (.fail n)).updaters n = some { u with phase := .failed } := by
  simp only [step, hu]
  exact ⟨without_setUpdater w n _, if_pos rfl⟩

theorem run_of_ended (hu : w.updaters n = some u) (hended : u.phase.IsEnded) (hgo : Event.GoOn n events) :
    (w.run events).without n = (w.without n).run (Event.ofOthers n events) ∧
    ∃ v, (w.run events).updaters n = some v ∧ (v.phase = u.phase ∨ v.phase = .failed ∧ .fail n ∈ events) := by
  induction events generalizing w u with
  | nil => exact ⟨rfl, u, hu, Or.inl rfl⟩
  | cons e rest ih =>
    have hrest : Event.GoOn n rest := fun x hx => hgo x (List.mem_cons_of_mem _ hx)
    by_cases he : e.updater? = some n
    · rw [Event.ofOthers_cons_of_eq he]
      rcases hgo e List.mem_cons_self he with rfl | rfl
      · have hidle : u.step w.store w.database = (u, w.database) := by
          obtain ⟨index, batchSize, patience, phase⟩ := u
          cases phase with
          | finished | failed => rfl
          | reading | ready | fetched => exact hended.elim
        obtain ⟨hwithout, hupdater⟩ := step_advance hu
        rw [hidle] at hwithout hupdater
        obtain ⟨hrun, v, hv, hphase⟩ := ih hupdater hended hrest
        refine ⟨hrun.trans (congrArg (run · _) hwithout), v, hv, ?_⟩
        exact hphase.imp_right fun h => ⟨h.1, List.mem_cons_of_mem _ h.2⟩
      · obtain ⟨hwithout, hupdater⟩ := step_fail hu
        obtain ⟨hrun, v, hv, hphase⟩ := ih hupdater trivial hrest
        refine ⟨hrun.trans (congrArg (run · _) hwithout), v, hv, Or.inr ⟨?_, List.mem_cons_self⟩⟩
        exact hphase.elim id And.left
    · obtain ⟨hwithout, hupdater⟩ := w.step_of_others he
      obtain ⟨hrun, v, hv, hphase⟩ := ih (hupdater.trans hu) hended hrest
      rw [Event.ofOthers_cons_of_ne he]
      refine ⟨hrun.trans (congrArg (run · _) hwithout), v, hv, ?_⟩
      exact hphase.imp_right fun h => ⟨h.1, List.mem_cons_of_mem _ h.2⟩

/-- An updater that has not ended yet has a next step among the events at whose end it has. -/
theorem exists_next (hu : w.updaters n = some u) (hphase : ¬ u.phase.IsEnded) (hgo : Event.GoOn n events)
    {v : Updater} (hv : (w.run events).updaters n = some v) (hended : v.phase.IsEnded) :
    ∃ front e rest, events = front ++ e :: rest ∧ (∀ x ∈ front, x.updater? ≠ some n) ∧
      e.updater? = some n ∧ (e = .advance n ∨ e = .fail n) := by
  cases hfind : events.find? (·.updater? == some n) with
  | none =>
    have hothers : ∀ e ∈ events, e.updater? ≠ some n := by
      intro e he
      simpa using List.find?_eq_none.mp hfind e he
    rw [(w.run_of_others hothers).2, hu] at hv
    obtain rfl := Option.some.inj hv
    exact absurd hended hphase
  | some e =>
    obtain ⟨he, front, rest, hevents, hfront⟩ := List.find?_eq_some_iff_append.mp hfind
    have hown : e.updater? = some n := by simpa using he
    refine ⟨front, e, rest, hevents, fun x hx => by simpa using hfront x hx, hown, ?_⟩
    exact hgo e (by rw [hevents]; exact List.mem_append_right _ List.mem_cons_self) hown

theorem run_fetch {index : String} {batchSize patience : Nat} {target since : Int} {front later : List Event}
    (hu : w.updaters n = some ⟨index, batchSize, patience, .ready target since⟩) (hlt : since < target)
    (hfront : ∀ x ∈ front, x.updater? ≠ some n) (hlater : ∀ x ∈ later, x.updater? ≠ some n) :
    (w.run (front ++ .advance n :: later)).without n = ((w.without n).run front).run later ∧
    (w.run (front ++ .advance n :: later)).updaters n = some ⟨index, batchSize, patience, .fetched target since
      (Page.cut target (max batchSize 1) ((w.run front).store.changesSince since (max batchSize 1)))⟩ := by
  obtain ⟨hasked, hupdater⟩ := w.run_of_others hfront
  obtain ⟨hkept, hfetched⟩ := step_advance (hupdater.trans hu)
  simp only [Updater.step, if_neg (Int.not_le.mpr hlt)] at hkept hfetched
  obtain ⟨hleft, hlast⟩ := ((w.run front).step (.advance n)).run_of_others hlater
  have hrun : w.run (front ++ .advance n :: later) = ((w.run front).step (.advance n)).run later :=
    run_append w front (.advance n :: later)
  rw [hrun, ← hasked]
  exact ⟨hleft.trans (congrArg (run · later) hkept), hlast.trans hfetched⟩

theorem sequence_le_run (w : World) (events : List Event) : w.store.sequence ≤ (w.run events).store.sequence := by
  induction events generalizing w with
  | nil => exact Int.le_refl _
  | cons e rest ih =>
    refine Int.le_trans ?_ (ih (w.step e))
    rcases w.step_store e with hstore | ⟨docId, hstore⟩ | ⟨docId, g, deleted, body, hstore⟩ <;> rw [hstore]
    · exact (Store.precedes_purge _ _).sequence_le
    · exact (Store.precedes_record _ _ _ _ _).sequence_le

end World

/-! ## Requests of a call -/

namespace Update

open DocIndex.Action

variable {σ : Type} {h : Host σ} {index : String} {limit fuel patience : Nat} {target since : Int} {s : σ}

/-- What an update has left to do when it has come to a checkpoint. -/
def goesOn (h : Host σ) (index : String) (limit : Nat) (target : Int) (fuel patience : Nat) (since : Int) :
    Action σ (Option Int) :=
  catchUp h index limit target fuel since >>= follow h index limit target patience

theorem goesOn_of_le (hle : target ≤ since) :
    goesOn h index limit target fuel patience since s = (.ok (some since), s) := by
  rw [goesOn, catchUp_of_le hle, bind_apply]
  rfl

theorem goesOn_of_lt (hlt : since < target) :
    goesOn h index limit target (fuel + 1) patience since s =
      match advance h index limit target since s with
      | (.ok (.reached checkpoint), t) => goesOn h index limit target fuel patience checkpoint t
      | (.ok progress, t) => follow h index limit target patience progress t
      | (.error e, t) => (.error e, t) := by
  rw [goesOn, bind_apply, catchUp, if_neg (Int.not_le.mpr hlt), bind_apply]
  rcases advance h index limit target since s with ⟨e | progress, t⟩
  · rfl
  · cases progress with
    | reached checkpoint => exact (bind_apply _ _ _).symm
    | vanished | moved => rfl

end Update

namespace Session

variable {s : Session} {index : String} {limit fuel patience q : Nat} {target since : Int}

def fetched (s : Session) (since : Int) : Session := { s.left with fetches := s.fetches ++ [(s.asked.store, since)] }

theorem advance_eq : Update.advance (host patience) index limit target since s =
    match s.gap.failure? with
    | some e => (.error (.store e), s.fetched since)
    | none => Update.applyPage (host patience) index since
        (Page.cut target limit (s.asked.store.changesSince since limit)) (s.fetched since) := by
  have hrequest : (host patience).changesSince since limit s =
      (s.answer (s.asked.store.changesSince since limit), s.fetched since) := rfl
  rw [Update.advance, Action.bind_apply, Host.ask, hrequest]
  unfold answer
  cases s.gap.failure? <;> rfl

theorem goesOn_of_failing {v : World} {g : Gap} {e : StoreError} {script : List Gap} {fetches : List (Store × Int)}
    (hlt : since < target) (hfailure : g.failure? = some e) :
    Update.goesOn (host patience) index limit target (fuel + 1) q since ⟨v, g :: script, fetches⟩ =
      (.error (.store e),
        ⟨(v.run g.before).run g.after, script, fetches ++ [((v.run g.before).store, since)]⟩) := by
  have hgap : (⟨v, g :: script, fetches⟩ : Session).gap.failure? = some e := hfailure
  rw [Update.goesOn_of_lt hlt, advance_eq, hgap]
  rfl

variable (index fuel patience q) in
theorem goesOn_of_answered (v : World) (g : Gap) (script : List Gap) (fetches : List (Store × Int)) {page : Page}
    (hlt : since < target) (hfailure : g.failure? = none)
    (hpage : Page.cut target limit ((v.run g.before).store.changesSince since limit) = page) :
    Update.goesOn (host patience) index limit target (fuel + 1) q since ⟨v, g :: script, fetches⟩ =
      match ((v.run g.before).run g.after).database.applyBatch index since page.changes page.checkpoint with
      | .ok (.applied next) => Update.goesOn (host patience) index limit target fuel q page.checkpoint
          ⟨{ (v.run g.before).run g.after with database := next }, script,
            fetches ++ [((v.run g.before).store, since)]⟩
      | .ok .vanished =>
        (.ok none, ⟨(v.run g.before).run g.after, script, fetches ++ [((v.run g.before).store, since)]⟩)
      | .ok (.moved c) => Update.follow (host patience) index limit target q (.moved c)
          ⟨(v.run g.before).run g.after, script, fetches ++ [((v.run g.before).store, since)]⟩
      | .error e =>
        (.error e, ⟨(v.run g.before).run g.after, script, fetches ++ [((v.run g.before).store, since)]⟩) := by
  have hgap : (⟨v, g :: script, fetches⟩ : Session).gap.failure? = none := hfailure
  have hasked : (⟨v, g :: script, fetches⟩ : Session).asked = v.run g.before := rfl
  have hleft : (⟨v, g :: script, fetches⟩ : Session).fetched since =
      ⟨(v.run g.before).run g.after, script, fetches ++ [((v.run g.before).store, since)]⟩ := rfl
  have hdatabase : ∀ s : Session, (host patience).database s = s.world.database := fun _ => rfl
  rw [Update.goesOn_of_lt hlt, advance_eq, hgap, hasked, hpage, hleft]
  dsimp only
  rw [Update.applyPage, hdatabase]
  rcases ((v.run g.before).run g.after).database.applyBatch index since page.changes page.checkpoint with e | outcome
  · rfl
  · cases outcome <;> rfl

theorem updateIndex_of_failing {v : World} {g : Gap} {e : StoreError} {script : List Gap} {batchSize : Nat}
    (hfailure : g.failure? = some e) :
    Update.updateIndex (host patience) batchSize index ⟨v, g :: script, []⟩ =
      (.error (.store e), ⟨(v.run g.before).run g.after, script, []⟩) := by
  have hrequest : (host patience).currentSequence ⟨v, g :: script, []⟩ =
      (.error e, ⟨(v.run g.before).run g.after, script, []⟩) := by
    show (answer _ _, _) = _
    rw [answer, show (⟨v, g :: script, []⟩ : Session).gap.failure? = some e from hfailure]
    rfl
  rw [Update.updateIndex, Action.bind_apply, Host.ask, hrequest]

variable (index patience) in
theorem updateIndex_of_answered (v : World) (g : Gap) (script : List Gap) (batchSize : Nat)
    (hfailure : g.failure? = none) :
    Update.updateIndex (host patience) batchSize index ⟨v, g :: script, []⟩ =
      match Database.lift (((v.run g.before).run g.after).database.catalog.lastSequence? index) with
      | .ok (some since) => Update.goesOn (host patience) index (max batchSize 1) (v.run g.before).store.sequence
          ((v.run g.before).store.sequence - since).toNat patience since ⟨(v.run g.before).run g.after, script, []⟩
      | .ok none => (.ok none, ⟨(v.run g.before).run g.after, script, []⟩)
      | .error e => (.error e, ⟨(v.run g.before).run g.after, script, []⟩) := by
  have hrequest : (host patience).currentSequence ⟨v, g :: script, []⟩ =
      (.ok (v.run g.before).store.sequence, ⟨(v.run g.before).run g.after, script, []⟩) := by
    show (answer _ _, _) = _
    rw [answer, show (⟨v, g :: script, []⟩ : Session).gap.failure? = none from hfailure]
    rfl
  have hdatabase : ∀ s : Session, (host patience).database s = s.world.database := fun _ => rfl
  rw [Update.updateIndex, Action.bind_apply, Host.ask, hrequest]
  dsimp only
  rw [Action.bind_apply, Host.look, hdatabase]
  rcases Database.lift (((v.run g.before).run g.after).database.catalog.lastSequence? index) with e | since?
  · rfl
  · cases since? with
    | none => rfl
    | some since => exact congrFun (Update.settle_eq_bind _ _) _

end Session

/-! ## Updaters as calls -/

/-- What the phase of an updater that has ended tells of a call, unless the updater was made to fail. -/
inductive Phase.Tells (halted : Prop) : Phase → Except QueryError (Option Int) → Prop where
  | finished (checkpoint? : Option Int) : Tells halted (.finished checkpoint?) (.ok checkpoint?)
  | failed (e : QueryError) : Tells halted .failed (.error e)
  | halted (h : halted) (outcome : Except QueryError (Option Int)) : Tells halted .failed outcome

theorem Phase.Tells.mono {a b : Prop} {phase : Phase} {outcome : Except QueryError (Option Int)}
    (h : phase.Tells a outcome) (hab : a → b) : phase.Tells b outcome := by
  cases h with
  | finished checkpoint? => exact .finished checkpoint?
  | failed e => exact .failed e
  | halted h => exact .halted (hab h) outcome

/-- The steps of an updater among some events are an action: the events of others are what others do around its
requests and after it, and the world that comes out is the same. A request fails only where the updater is made to. -/
structure Replays (n : Nat) (w : World) (events : List Event) (action : Action Session (Option Int))
    (script : List Gap) (fetches : List (Store × Int)) (rest : List Event) : Prop where
  others : script.flatMap (fun g => g.before ++ g.after) ++ rest = Event.ofOthers n events
  answered : ∀ g ∈ script, g.failure? = none ∨ .fail n ∈ events
  world : (action ⟨w.without n, script, fetches⟩).2.world.run rest = (w.run events).without n
  outcome : ∃ u, (w.run events).updaters n = some u ∧
    u.phase.Tells (.fail n ∈ events) (action ⟨w.without n, script, fetches⟩).1

namespace Replays

variable {n : Nat} {w : World} {u : Updater} {e : Event} {events front rest undone later : List Event} {s : Session}
variable {action next : Action Session (Option Int)} {script : List Gap} {fetches fetches' : List (Store × Int)}
variable {outcome : Except QueryError (Option Int)}

variable (undone) in
theorem of_ended (hfront : ((w.run front).step e).without n = (w.without n).run (Event.ofOthers n front))
    (he : e.updater? = some n) (hu : ((w.run front).step e).updaters n = some u) (hended : u.phase.IsEnded)
    (hgo : Event.GoOn n rest) (haction : action ⟨w.without n, script, fetches⟩ = (outcome, s))
    (hscript : script.flatMap (fun g => g.before ++ g.after) ++ undone = Event.ofOthers n front)
    (hanswered : ∀ g ∈ script, g.failure? = none ∨ e = .fail n)
    (hworld : s.world.run undone = (w.without n).run (Event.ofOthers n front))
    (htells : u.phase.Tells (e = .fail n) outcome) :
    Replays n w (front ++ e :: rest) action script fetches (undone ++ Event.ofOthers n rest) := by
  have hrun : w.run (front ++ e :: rest) = ((w.run front).step e).run rest := World.run_append w front (e :: rest)
  have hhalted : e = .fail n → .fail n ∈ front ++ e :: rest :=
    fun h => List.mem_append_right _ (by rw [h]; exact List.mem_cons_self)
  obtain ⟨hwithout, v, hv, hphase⟩ := World.run_of_ended hu hended hgo
  refine ⟨?_, fun g hg => (hanswered g hg).imp_right hhalted, ?_, v, by rw [hrun, hv], ?_⟩
  · rw [Event.ofOthers_append, Event.ofOthers_cons_of_eq he, ← List.append_assoc, hscript]
  · rw [hrun, hwithout, hfront, haction, World.run_append, hworld]
  · rw [haction]
    rcases hphase with hsame | ⟨hfailed, hmem⟩
    · rw [hsame]
      exact htells.mono hhalted
    · rw [hfailed]
      exact .halted (List.mem_append_right _ (List.mem_cons_of_mem _ hmem)) outcome

theorem of_last (g : Gap) (hleft : (w.run front).without n = ((w.without n).run g.before).run g.after)
    (hgap : g.before ++ g.after = Event.ofOthers n front) (hanswered : g.failure? = none ∨ e = .fail n)
    (he : e.updater? = some n) (hgo : Event.GoOn n rest)
    (hkept : ((w.run front).step e).without n = (w.run front).without n)
    (hu : ((w.run front).step e).updaters n = some u) (hended : u.phase.IsEnded)
    (haction : action ⟨w.without n, [g], fetches⟩ = (outcome, s))
    (hworld : s.world = ((w.without n).run g.before).run g.after) (htells : u.phase.Tells (e = .fail n) outcome) :
    ∃ script undone, Replays n w (front ++ e :: rest) action script fetches undone := by
  have hrun : ((w.without n).run g.before).run g.after = (w.without n).run (Event.ofOthers n front) := by
    rw [← World.run_append, hgap]
  refine ⟨[g], _, of_ended [] ?_ he hu hended hgo haction ?_ ?_ ?_ htells⟩
  · rw [hkept, hleft, hrun]
  · rw [List.flatMap_singleton, List.append_nil, hgap]
  · exact List.forall_mem_singleton.mpr hanswered
  · exact hworld.trans hrun

theorem of_next (he : e.updater? = some n) {g : Gap} (hanswered : g.failure? = none)
    (hgap : g.before ++ g.after = Event.ofOthers n front)
    (hnext : Replays n ((w.run front).step e) later next script fetches' rest)
    (haction : action ⟨w.without n, g :: script, fetches⟩ =
      next ⟨((w.run front).step e).without n, script, fetches'⟩) :
    Replays n w (front ++ e :: later) action (g :: script) fetches rest := by
  have hrun : w.run (front ++ e :: later) = ((w.run front).step e).run later := World.run_append w front (e :: later)
  have hlater : .fail n ∈ later → .fail n ∈ front ++ e :: later :=
    fun h => List.mem_append_right _ (List.mem_cons_of_mem _ h)
  obtain ⟨v, hv, htells⟩ := hnext.outcome
  refine ⟨?_, List.forall_mem_cons.mpr ⟨Or.inl hanswered, fun g hg => (hnext.answered g hg).imp_right hlater⟩, ?_, v,
    by rw [hrun, hv], ?_⟩
  · rw [Event.ofOthers_append, Event.ofOthers_cons_of_eq he, List.flatMap_cons, hgap, List.append_assoc, hnext.others]
  · rw [hrun, haction, hnext.world]
  · rw [haction]
    exact htells.mono hlater

variable {index : String} {batchSize patience fuel p : Nat} {target since : Int} {v : Updater}

/-- When the updater is ready to go on, its steps are what an update has left to do. -/
def Resumes (p : Nat) (index : String) (batchSize : Nat) (target : Int) (n : Nat) (w : World)
    (events : List Event) : Prop :=
  ∀ patience fuel since, w.updaters n = some ⟨index, batchSize, patience, .ready target since⟩ →
    (target - since).toNat ≤ fuel → ∀ fetches, ∃ script rest, Replays n w events
      (Update.goesOn (Session.host p) index (max batchSize 1) target fuel patience since) script fetches rest

variable (fuel) in
/-- What follows when an updater has fetched a page: the batch, or what keeps the updater from it. -/
theorem exists_fetched (hs : w.store.WellFormed)
    (hu : w.updaters n = some ⟨index, batchSize, patience, .ready target since⟩) (hlt : since < target)
    (htarget : target ≤ w.store.sequence) (hfront : ∀ x ∈ front, x.updater? ≠ some n)
    (hlater : ∀ x ∈ later, x.updater? ≠ some n) (he : e = .advance n ∨ e = .fail n) (hgo : Event.GoOn n rest)
    (hfuel : (target - since).toNat ≤ fuel + 1) (fetches : List (Store × Int))
    (hresumes : Resumes p index batchSize target n ((w.run (front ++ .advance n :: later)).step e) rest) :
    ∃ script undone, Replays n w (front ++ .advance n :: later ++ e :: rest)
      (Update.goesOn (Session.host p) index (max batchSize 1) target (fuel + 1) patience since)
        script fetches undone := by
  have hstore : ((w.without n).run front).store = (w.run front).store := by
    rw [← (w.run_of_others hfront).1]
    rfl
  have hcovers : (Page.cut target (max batchSize 1) ((w.run front).store.changesSince since
      (max batchSize 1))).Covers (w.run front).store since :=
    Page.cut_covers (World.run_wellFormed hs front) (by omega) hlt (Int.le_trans htarget (w.sequence_le_run front))
  have hothers : Event.ofOthers n (front ++ .advance n :: later) = front ++ later := by
    rw [Event.ofOthers_append, Event.ofOthers_cons_of_eq rfl, Event.ofOthers_eq_self hfront,
      Event.ofOthers_eq_self hlater]
  have hown : e.updater? = some n := by rcases he with rfl | rfl <;> rfl
  obtain ⟨hleft, hfetched⟩ := World.run_fetch hu hlt hfront hlater
  have hdatabase : (((w.without n).run front).run later).database =
      (w.run (front ++ .advance n :: later)).database := by
    rw [← hleft]
    rfl
  generalize hpage : Page.cut target (max batchSize 1) ((w.run front).store.changesSince since (max batchSize 1)) = page
    at hcovers hfetched
  rcases he with rfl | rfl
  · obtain ⟨hkept, hlast⟩ := World.step_advance hfetched
    have hasked : Page.cut target (max batchSize 1) (((w.without n).run front).store.changesSince since
        (max batchSize 1)) = page := by
      rw [hstore]
      exact hpage
    have hcall := fun script => Session.goesOn_of_answered index fuel p patience (w.without n) ⟨front, none, later⟩
      script fetches hlt rfl hasked
    simp only [hdatabase] at hcall
    simp only [Updater.step] at hkept hlast
    cases hbatch : (w.run (front ++ .advance n :: later)).database.applyBatch index since page.changes
        page.checkpoint with
    | error e =>
      simp only [hbatch] at hkept hlast hcall
      exact of_last ⟨front, none, later⟩ hleft hothers.symm (Or.inl rfl) hown hgo hkept hlast trivial (hcall []) rfl
        (.failed e)
    | ok outcome =>
      cases outcome with
      | vanished =>
        simp only [hbatch] at hkept hlast hcall
        exact of_last ⟨front, none, later⟩ hleft hothers.symm (Or.inl rfl) hown hgo hkept hlast trivial (hcall []) rfl
          (.finished none)
      | moved c =>
        cases patience with
        | zero =>
          simp only [hbatch] at hkept hlast hcall
          exact of_last ⟨front, none, later⟩ hleft hothers.symm (Or.inl rfl) hown hgo hkept hlast trivial (hcall []) rfl
            (.failed (.unsettled index))
        | succ q =>
          simp only [hbatch] at hkept hlast hcall
          obtain ⟨script, undone, hnext⟩ := hresumes q _ c hlast (Nat.le_refl _)
            (fetches ++ [(((w.without n).run front).store, since)])
          refine ⟨⟨front, none, later⟩ :: script, undone, of_next hown rfl hothers.symm hnext ?_⟩
          rw [hcall, hkept, ← hleft]
          exact congrFun (Update.settle_eq_bind q c) _
      | applied next =>
        simp only [hbatch] at hkept hlast hcall
        have hcloser : (target - page.checkpoint).toNat ≤ fuel := by
          have hraised := hcovers.since_lt
          omega
        obtain ⟨script, undone, hnext⟩ := hresumes patience fuel page.checkpoint hlast hcloser
          (fetches ++ [(((w.without n).run front).store, since)])
        refine ⟨⟨front, none, later⟩ :: script, undone, of_next hown rfl hothers.symm hnext ?_⟩
        rw [hcall, hkept, ← hleft]
  · obtain ⟨hkept, hlast⟩ := World.step_fail hfetched
    exact of_last ⟨front, some (.backend ""), later⟩ hleft hothers.symm (Or.inr rfl) hown hgo hkept hlast trivial
      (Session.goesOn_of_failing hlt rfl) rfl (.halted rfl _)

variable (fuel p) in
theorem exists_reached (hu : (w.run front).updaters n = some ⟨index, batchSize, patience, .ready target since⟩)
    (hle : target ≤ since) (hfront : ∀ x ∈ front, x.updater? ≠ some n) (hown : e.updater? = some n)
    (he : e = .advance n ∨ e = .fail n) (hgo : Event.GoOn n rest) (fetches : List (Store × Int)) :
    ∃ script undone, Replays n w (front ++ e :: rest)
      (Update.goesOn (Session.host p) index (max batchSize 1) target fuel patience since) script fetches undone := by
  have hothers := Event.ofOthers_eq_self hfront
  have hdone : Update.goesOn (Session.host p) index (max batchSize 1) target fuel patience since
      ⟨w.without n, [], fetches⟩ = (.ok (some since), ⟨w.without n, [], fetches⟩) := Update.goesOn_of_le hle
  have hends : ∀ {x : Updater}, ((w.run front).step e).without n = (w.run front).without n →
      ((w.run front).step e).updaters n = some x → x.phase.IsEnded → x.phase.Tells (e = .fail n) (.ok (some since)) →
      Replays n w (front ++ e :: rest)
        (Update.goesOn (Session.host p) index (max batchSize 1) target fuel patience since) [] fetches
        (front ++ Event.ofOthers n rest) := by
    intro x hkept hlast hended htells
    refine of_ended front ?_ hown hlast hended hgo hdone hothers.symm (List.forall_mem_nil _) ?_ htells
    · rw [hothers, hkept, (w.run_of_others hfront).1]
    · rw [hothers]
  rcases he with rfl | rfl
  · obtain ⟨hkept, hlast⟩ := World.step_advance hu
    simp only [Updater.step, if_pos hle] at hkept hlast
    exact ⟨[], _, hends hkept hlast trivial (.finished _)⟩
  · obtain ⟨hkept, hlast⟩ := World.step_fail hu
    exact ⟨[], _, hends hkept hlast trivial (.halted rfl _)⟩

theorem resumes (hs : w.store.WellFormed) (htarget : target ≤ w.store.sequence) (hgo : Event.GoOn n events)
    (hv : (w.run events).updaters n = some v) (hended : v.phase.IsEnded) :
    Resumes p index batchSize target n w events := by
  induction hlength : events.length using Nat.strongRecOn generalizing w events with
  | ind k ih =>
    intro patience fuel since hu hfuel fetches
    obtain ⟨front, e, rest, rfl, hfront, he, hnext⟩ := World.exists_next hu id hgo hv hended
    have hgorest : Event.GoOn n rest := fun x hx => hgo x (List.mem_append_right _ (List.mem_cons_of_mem _ hx))
    obtain ⟨hwithout, hupdater⟩ := w.run_of_others hfront
    rw [hu] at hupdater
    by_cases hle : target ≤ since
    · exact exists_reached fuel p hupdater hle hfront he hnext hgorest fetches
    · have hlt := Int.not_le.mp hle
      obtain ⟨fuel, rfl⟩ : ∃ m, fuel = m + 1 := ⟨fuel - 1, by omega⟩
      rcases hnext with rfl | rfl
      · have hrun : ∀ later : List Event, w.run (front ++ .advance n :: later) =
            ((w.run front).step (.advance n)).run later := fun later => World.run_append w front (.advance n :: later)
        have hfetched := (World.run_fetch hu hlt hfront fun _ hx => absurd hx List.not_mem_nil).2
        rw [hrun] at hfetched hv
        obtain ⟨later, e, rest, rfl, hlater, hown, hlast⟩ := World.exists_next hfetched id hgorest hv hended
        have hgolast : Event.GoOn n rest := fun x hx => hgorest x (List.mem_append_right _ (List.mem_cons_of_mem _ hx))
        have hresumes : Resumes p index batchSize target n ((w.run (front ++ .advance n :: later)).step e) rest := by
          refine ih rest.length ?_ ?_ ?_ hgolast ?_ rfl
          · simp only [List.length_append, List.length_cons] at hlength
            omega
          · exact World.step_wellFormed (World.run_wellFormed hs _) e
          · exact Int.le_trans htarget ((w.sequence_le_run _).trans (World.sequence_le_run _ [e]))
          · rw [hrun]
            rw [World.run_append] at hv
            exact hv
        have hreplays := exists_fetched fuel hs hu hlt htarget hfront hlater hlast hgolast hfuel fetches hresumes
        rwa [List.append_assoc] at hreplays
      · obtain ⟨hkept, hlast⟩ := World.step_fail hupdater
        have hothers := Event.ofOthers_eq_self hfront
        exact of_last ⟨front, some (.backend ""), []⟩ hwithout ((List.append_nil _).trans hothers.symm) (Or.inr rfl) he
          hgorest hkept hlast trivial (Session.goesOn_of_failing hlt rfl) rfl (.halted rfl _)

variable (p) in
theorem exists_reading (hs : w.store.WellFormed)
    (hu : w.updaters n = some ⟨index, batchSize, p, .reading w.store.sequence⟩) (hgo : Event.GoOn n events)
    (hv : (w.run events).updaters n = some v) (hended : v.phase.IsEnded) :
    ∃ script rest, Replays n w events (Update.updateIndex (Session.host p) batchSize index) script [] rest := by
  obtain ⟨front, e, rest, rfl, hfront, he, hnext⟩ := World.exists_next hu id hgo hv hended
  have hgorest : Event.GoOn n rest := fun x hx => hgo x (List.mem_append_right _ (List.mem_cons_of_mem _ hx))
  obtain ⟨hwithout, hupdater⟩ := w.run_of_others hfront
  rw [hu] at hupdater
  have hothers := Event.ofOthers_eq_self hfront
  have hdatabase : ((w.without n).run front).database = (w.run front).database := by
    rw [← hwithout]
    rfl
  have hleft : (w.run front).without n = ((w.without n).run []).run front := hwithout
  rcases hnext with rfl | rfl
  · obtain ⟨hkept, hlast⟩ := World.step_advance hupdater
    have hcall := fun script => Session.updateIndex_of_answered index p (w.without n) ⟨[], none, front⟩ script
      batchSize rfl
    have hread : ((((w.without n).run []).run front).database.catalog.lastSequence? index) =
        (w.run front).database.catalog.lastSequence? index := congrArg (·.catalog.lastSequence? index) hdatabase
    simp only [hread] at hcall
    simp only [Updater.step] at hkept hlast
    cases hsince : (w.run front).database.catalog.lastSequence? index with
    | error e =>
      simp only [hsince] at hkept hlast hcall
      exact of_last ⟨[], none, front⟩ hleft hothers.symm (Or.inl rfl) he hgorest hkept hlast trivial (hcall []) rfl
        (.failed _)
    | ok since? =>
      cases since? with
      | none =>
        simp only [hsince] at hkept hlast hcall
        exact of_last ⟨[], none, front⟩ hleft hothers.symm (Or.inl rfl) he hgorest hkept hlast trivial (hcall []) rfl
          (.finished none)
      | some since =>
        simp only [hsince] at hkept hlast hcall
        have hrun : w.run (front ++ .advance n :: rest) = ((w.run front).step (.advance n)).run rest :=
          World.run_append w front (.advance n :: rest)
        rw [hrun] at hv
        have htarget := (w.sequence_le_run front).trans (World.sequence_le_run _ [.advance n])
        obtain ⟨script, undone, hready⟩ := resumes (p := p) (World.step_wellFormed (World.run_wellFormed hs front) _)
          htarget hgorest hv hended p _ since hlast (Nat.le_refl _) []
        refine ⟨⟨[], none, front⟩ :: script, undone, of_next he rfl hothers.symm hready ?_⟩
        rw [hcall, hkept, hwithout, ← hdatabase]
        rfl
  · obtain ⟨hkept, hlast⟩ := World.step_fail hupdater
    exact of_last ⟨[], some (.backend ""), front⟩ hleft hothers.symm (Or.inr rfl) he hgorest hkept hlast trivial
      (Session.updateIndex_of_failing rfl) rfl (.halted rfl _)

/-- An updater that is stepped to its end is an update of its index. -/
theorem updateIndex (hs : w.store.WellFormed) (hgo : Event.GoOn n events)
    (hu : (w.run (.startUpdate n index batchSize p :: events)).updaters n = some u) (hended : u.phase.IsEnded) :
    ∃ script rest, Replays n w (.startUpdate n index batchSize p :: events)
      (Update.updateIndex (Session.host p) batchSize index) script [] rest := by
  let start : Event := .startUpdate n index batchSize p
  have hstarted : (w.step start).updaters n = some ⟨index, batchSize, p, .reading w.store.sequence⟩ := if_pos rfl
  have hwithout : (w.step start).without n = w.without n := World.without_setUpdater w n _
  obtain ⟨script, rest, h⟩ := exists_reading p (w := w.step start) hs hstarted hgo hu hended
  obtain ⟨v, hv, htells⟩ := h.outcome
  have hmem : .fail n ∈ events → .fail n ∈ start :: events := List.mem_cons_of_mem _
  refine ⟨script, rest, ?_, fun g hg => (h.answered g hg).imp_right hmem, ?_, v, hv, ?_⟩
  · rw [Event.ofOthers_cons_of_eq rfl]
    exact h.others
  · rw [← hwithout]
    exact h.world
  · rw [← hwithout]
    exact htells.mono hmem

end Replays

end DocIndex
