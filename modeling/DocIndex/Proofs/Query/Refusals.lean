import DocIndex.Proofs.Maintenance.Visits
import DocIndex.Proofs.Query.Find

/-! # Queries that are rejected

A query is rejected if it means nothing, cannot be sorted as it asks or has no index to be answered from. All this is
found out before any index is updated, from the definitions alone. An update fixes types of fields and moves
checkpoints, and a plan depends on neither; so the plan that is made anew after it is there, and can be written down.
-/

namespace DocIndex

/-- The error is one of the query itself. -/
def QueryError.isRejection : QueryError → Bool
  | .invalidQuery _ | .invalidSort _ | .noSuitableIndex _ => true
  | _ => false

/-- What a query is checked for before any index is updated: it is read and planned, and the tables accept its search
texts. -/
def Query.admit? (q : Query) (db : Database) : Except QueryError Plan := do
  let selector ← Selector.ofJson? q.selector
  q.validate
  let p ← Plan.make selector (← db.definitions) q.sort
  Manager.checkSearches db p.searches
  .ok p

namespace Action

variable {σ α : Type} {s : σ} {good : α → σ → Prop} {bad : QueryError → σ → Prop}

theorem after_lift_cases {result : Except QueryError α} (hgood : ∀ v, result = .ok v → good v s)
    (hbad : ∀ e, result = .error e → bad e s) : After (liftM result : Action σ α) s good bad := by
  cases result with
  | ok v => exact hgood v rfl
  | error e => exact hbad e rfl

theorem after_look_cases {h : Host σ} {read : Database → Except QueryError α}
    (hgood : ∀ v, read (h.database s) = .ok v → good v s) (hbad : ∀ e, read (h.database s) = .error e → bad e s) :
    After (h.look read) s good bad := by
  unfold After Host.look
  cases hread : read (h.database s) with
  | ok v => exact hgood v hread
  | error e => exact hbad e hread

end Action

namespace Manager

open DocIndex.Action

variable {σ : Type} {m : Manager σ} {q : Query} {s : σ} {good : ResultSet → σ → Prop} {bad : QueryError → σ → Prop}

/-- What is left to do for a query that was admitted. -/
def finish (m : Manager σ) (q : Query) (selector : Selector) (first : Plan) : Action σ ResultSet := do
  if m.settings.updateBeforeFind then
    m.updateAll
    let second ← m.plan selector q.sort
    m.run q second
  else m.run q first

theorem after_find (hrefused : ∀ e, q.admit? (m.host.database s) = .error e → bad e s)
    (hadmitted : ∀ selector definitions p, Selector.ofJson? q.selector = .ok selector →
      (m.host.database s).definitions = .ok definitions → Plan.make selector definitions q.sort = .ok p →
      q.admit? (m.host.database s) = .ok p → After (m.finish q selector p) s good bad) :
    After (m.find q) s good bad := by
  unfold Query.admit? at hrefused hadmitted
  unfold find
  refine after_bind (after_lift_cases (fun selector hselector => ?_) fun e he => hrefused e ?_)
  · simp only [hselector, bind, Except.bind] at hrefused hadmitted
    refine after_bind (after_lift_cases (fun _ hvalidate => ?_) fun e he => hrefused e ?_)
    · simp only [hvalidate] at hrefused hadmitted
      unfold plan
      refine after_bind (after_bind (after_look_cases (fun definitions hdefinitions => ?_) fun e he => hrefused e ?_))
      · simp only [hdefinitions] at hrefused hadmitted
        refine after_lift_cases (fun p hp => ?_) fun e he => hrefused e ?_
        · simp only [hp] at hrefused hadmitted
          refine after_bind (after_look_cases (fun _ hsearches => ?_) fun e he => hrefused e ?_)
          · exact hadmitted selector definitions p rfl rfl hp (by simp only [hsearches])
          · simp only [he]
        · simp only [he]
      · simp only [he]
    · simp only [he]
  · simp only [he, bind, Except.bind]

/-- A plan of a selector that was read is never rejected when it is run. -/
theorem after_run_of_make {selector : Selector} {definitions : List Definition} {p : Plan}
    (hselector : Selector.ofJson? q.selector = .ok selector) (hp : Plan.make selector definitions q.sort = .ok p) :
    After (m.run q p) s (fun _ _ => True) fun e _ => e.isRejection = false := by
  have hcompiles := Plan.compiles_of_make (Selector.ofJson?_requested hselector) hp
  refine after_run (hcompiles.statement?_eq q.skip q.limit?) ?_
  cases (p.statement q.skip q.limit?).run (m.host.database s) with
  | ok rows => trivial
  | error e => rfl

end Manager

/-! ## Updates of indexes that stay -/

namespace Session

open DocIndex.Action

variable {s : Session} {xs : List Content}

/-- The indexes are these but for types, checkpoints and rows, and others only write to the store. -/
structure Serves (xs : List Content) (s : Session) : Prop where
  holds : ∃ ys, s.world.database.Holds ys ∧
    ys.map (fun z => z.definition.bare) = xs.map fun z => z.definition.bare
  alone : ∀ g ∈ s.script, ∀ e ∈ g.before ++ g.after, e.IsWrite

theorem Serves.left (h : s.Serves xs) : s.left.Serves xs := by
  refine ⟨?_, fun g hg => h.alone g (List.mem_of_mem_tail hg)⟩
  rw [left_database h.alone]
  exact h.holds

theorem Serves.applyBatch (h : s.Serves xs) {index : String} {since : Int} {page : Page} {db : Database}
    (hok : s.world.database.applyBatch index since page.changes page.checkpoint = .ok (.applied db)) :
    Serves xs { s with world := { s.world with database := db } } := by
  obtain ⟨ys, hholds, hbare⟩ := h.holds
  obtain ⟨outcome, houtcome, happlied⟩ := hholds.applyBatch_cases index since page
  rw [houtcome] at hok
  obtain ⟨y, hy, _, _, hnext⟩ := happlied db (Except.ok.inj hok)
  refine ⟨⟨_, hnext, ?_⟩, h.alone⟩
  rw [← hbare]
  exact Content.map_put (fun z => z.definition.bare) hholds.distinct hy (Content.apply_name y page).symm
    (Content.bare_apply y page)

theorem guards_serves (patience : Nat) (xs : List Content) :
    (Session.host patience).Guards (Serves xs) fun e _ => e.isRejection = false where
  currentSequence := leads_ask (fun _ h => h.left) fun _ _ _ => rfl
  changesSince since limit := leads_ask (fun s h => ⟨h.left.holds, h.left.alone⟩) fun _ _ _ => rfl
  definitions := leads_look _ fun s e h he => by
    obtain ⟨ys, hholds, _⟩ := h.holds
    have he : s.world.database.definitions = .error e := he
    rw [hholds.definitions] at he
    cases he
  checkpoint index := leads_look _ fun s e h he => by
    obtain ⟨fault, rfl⟩ := Database.eq_sql_of_lift he
    rfl
  applyPage index since page := by
    intro s h
    obtain ⟨ys, hholds, _⟩ := h.holds
    obtain ⟨outcome, houtcome, _⟩ := hholds.applyBatch_cases index since page
    have hbatch : ((Session.host patience).database s).applyBatch index since page.changes page.checkpoint =
        .ok outcome := houtcome
    unfold After Update.applyPage
    rw [hbatch]
    cases outcome with
    | applied db => exact h.applyBatch houtcome
    | vanished => exact h
    | moved checkpoint => exact h
  unsettled _ _ _ := rfl

end Session

namespace Manager

open DocIndex.Action

variable {q : Query} {s : Session} {xs : List Content} {selector : Selector} {p : Plan}

theorem after_finish {settings : ManagerSettings} {textSearch : Bool} {patience : Nat} (h : s.Serves xs)
    (hselector : Selector.ofJson? q.selector = .ok selector)
    (hp : Plan.make selector (Catalog.sorted (xs.map (·.definition))) q.sort = .ok p) :
    After (finish { host := Session.host patience, settings, textSearch } q selector p) s (fun _ _ => True)
      fun e _ => e.isRejection = false := by
  unfold finish
  split
  · refine after_bind ((Update.leads_updateAll (Session.guards_serves patience xs) s h).mono ?_ fun _ _ he => he)
    intro _ t ht
    obtain ⟨ys, hholds, hbare⟩ := ht.holds
    obtain ⟨second, hsecond⟩ := Plan.make_of_bare (Catalog.map_bare_sorted_congr hbare) hp
    exact after_bind (after_plan hholds.definitions hsecond (after_run_of_make hselector hsecond))
  · exact after_run_of_make hselector hp

end Manager

namespace World

open DocIndex.Action

/-- After any visits to an empty database, take a query in any settings while others do no more than write to the
store. If it is rejected, this was found out before any index was updated, and the whole world is as it was. Once a
query is admitted it is not rejected. -/
theorem visited_find (visits : List Visit) (v : Visit) (q : Query) (hcall : v.call = .find q) (halone : v.IsAlone) :
    (∀ e, (v.outcome (visited {} visits)).1 = .error e → e.isRejection = true →
      q.admit? (visited {} visits).database = .error e ∧
        (v.outcome (visited {} visits)).2 = v.session (visited {} visits)) ∧
    ∀ p, q.admit? (visited {} visits).database = .ok p →
      ∀ e, (v.outcome (visited {} visits)).1 = .error e → e.isRejection = false := by
  obtain ⟨xs, hholds, _⟩ := orderly_visited (w := {}) .empty visits
  generalize visited {} visits = w at hholds
  obtain ⟨call, settings, textSearch, patience, script⟩ := v
  obtain rfl : call = .find q := hcall
  have hserves : Session.Serves xs { world := w, script } := ⟨⟨xs, hholds, rfl⟩, halone⟩
  refine After.outcome (p := fun outcome (t : Session) =>
    (∀ e, outcome = .error e → e.isRejection = true → q.admit? w.database = .error e ∧ t = { world := w, script }) ∧
    ∀ p, q.admit? w.database = .ok p → ∀ e, outcome = .error e → e.isRejection = false) ?_
  refine after_bind (Manager.after_find (fun e he => ?_) fun selector definitions p hselector hdefinitions hp _ => ?_)
  · have he : q.admit? w.database = .error e := he
    refine ⟨?_, fun p hadmit => ?_⟩
    · rintro _ ⟨⟩ _
      exact ⟨he, rfl⟩
    · rw [he] at hadmit
      cases hadmit
  · have hdefinitions : w.database.definitions = .ok definitions := hdefinitions
    rw [hholds.definitions] at hdefinitions
    obtain rfl := Except.ok.inj hdefinitions
    refine (Manager.after_finish hserves hselector hp).mono (fun _ t _ => ⟨nofun, nofun⟩) fun e t he => ?_
    refine ⟨?_, ?_⟩
    · rintro _ ⟨⟩ hrejected
      rw [he] at hrejected
      cases hrejected
    · rintro _ _ _ ⟨⟩
      exact he

/-- A database with an index of ages, for whom there is a person. -/
def aged : List Visit :=
  [{ call := .reopen {} .absent none },
    { call := .ensure { name := "ages", fields := [{ path := "age" }] } Settings.ascending_nil
      script := [{ before := [.create "ann" [("age", .number (.int 40))]] }] }]

/-- A query for pets, of which there is no index. -/
def petQuery : Query := { selector := .object [("pet", .string "cat")] }

theorem visited_find_unindexed :
    (match (Visit.outcome { call := .find petQuery } (visited {} aged)).1 with
      | .error e => e.isRejection
      | .ok _ => false) = true ∧
    (Visit.outcome { call := .find petQuery } (visited {} aged)).2.world = visited {} aged := by
  obtain ⟨hrejected, _⟩ := visited_find aged { call := .find petQuery } petQuery rfl fun g hg =>
    absurd hg List.not_mem_nil
  have hrefused : (match (Visit.outcome { call := .find petQuery } (visited {} aged)).1 with
      | .error e => e.isRejection
      | .ok _ => false) = true := by decide +kernel
  refine ⟨hrefused, ?_⟩
  cases hresult : (Visit.outcome { call := .find petQuery } (visited {} aged)).1 with
  | ok u =>
    rw [hresult] at hrefused
    cases hrefused
  | error e =>
    rw [hresult] at hrefused
    rw [(hrejected e hresult hrefused).2]
    rfl

end World

end DocIndex
