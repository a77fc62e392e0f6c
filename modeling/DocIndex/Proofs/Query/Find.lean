import DocIndex.Proofs.Maintenance.UpdateAll
import DocIndex.Proofs.Query.Documents
import DocIndex.Proofs.Query.Limits
import DocIndex.Proofs.Query.Text

/-! # What queries find

A query brings all indexes up to date before it is answered. Where nobody else uses the store, and all indexes
start with it, its results are the latest revisions of the live documents that the selector asks for. The one
thing that is refused is a statement that is too large.
-/

namespace DocIndex

namespace Manager

open DocIndex.Action

variable {w : World} {xs : List Content} {s : Local} {good : ResultSet → Local → Prop}
variable {bad : QueryError → Local → Prop} {definitions : List Definition} {v : Json} {selector : Selector}
variable {sort : List SortKey} {p : Plan} {settings : ManagerSettings}

/-- A query without a page has been answered from indexes that are up to date with a store. -/
structure Answers (store : Store) (selector : Selector) (sort : List SortKey) (definitions : List Definition)
    (statement : Statement) (outcome : Except QueryError ResultSet) (t : Local) : Prop where
  store_eq : t.store = store
  definitions_eq : t.database.definitions = .ok definitions
  checkpoint_eq : ∀ d ∈ definitions, d.lastSequence = store.sequence
  statement_eq : ∃ p, Plan.make selector definitions sort = .ok p ∧ p.statement? 0 none = .ok statement
  refused : statement.isWithinLimits = false → outcome = .error (.sql .tooLarge)
  answered : statement.isWithinLimits = true → ∃ found docs, outcome = .ok found ∧
    found.documents (fun docId revId => .ok (store.revision? docId revId)) = .ok docs ∧
    (docs.map (·.docId)).Nodup ∧ ∀ r, r ∈ docs ↔
      store.winning? r.docId = some r ∧ r.deleted = false ∧ selector.SatisfiedBy definitions sort r

theorem after_plan {σ : Type} {m : Manager σ} {s : σ} {good : Plan → σ → Prop} {bad : QueryError → σ → Prop}
    (hd : (m.host.database s).definitions = .ok definitions) (hp : Plan.make selector definitions sort = .ok p)
    (h : good p s) : After (m.plan selector sort) s good bad :=
  after_bind (after_look hd (after_lift hp h))

theorem after_run {σ : Type} {m : Manager σ} {s : σ} {good : ResultSet → σ → Prop} {bad : QueryError → σ → Prop}
    {q : Query} {statement : Statement}
    (hs : p.statement? q.skip q.limit? = .ok statement)
    (h : match statement.run (m.host.database s) with
      | .ok rows => good { rows, fields? := q.fields? } s
      | .error e => bad (.sql e) s) : After (m.run q p) s good bad := by
  unfold Manager.run
  refine after_bind (after_lift hs ?_)
  have hfragment : statement.fragment.mapError QueryError.malformedFragment =
      .ok (.ofSlots statement.text statement.slots) := by
    rw [statement.fragment_eq]
    rfl
  generalize statement.fragment.mapError QueryError.malformedFragment = fragment at hfragment ⊢
  refine after_bind (after_lift hfragment ?_)
  refine after_bind ?_
  unfold After Host.look
  cases hrun : statement.run (m.host.database s) with
  | ok rows =>
    rw [hrun] at h
    simp only [hrun, Database.lift]
    exact h
  | error e =>
    rw [hrun] at h
    simp only [hrun, Database.lift]
    exact h

theorem after_run_caughtUp {m : Manager Local} (hm : m.host = Local.host) (h : s.Follows w xs)
    (hc : World.CaughtUp { w with database := s.database } xs) (hq : selector.Requested)
    (htext : selector.isTextFree = true)
    (hplan : Plan.make selector (Catalog.sorted (xs.map (·.definition))) sort = .ok p) :
    After (m.run { selector := v, sort } p) s
      (fun result t => ∃ statement,
        Answers w.store selector sort (Catalog.sorted (xs.map (·.definition))) statement (.ok result) t)
      fun e t => ∃ statement,
        Answers w.store selector sort (Catalog.sorted (xs.map (·.definition))) statement (.error e) t := by
  have hsound := h.sound
  have hcompiles := Plan.compiles_of_make hq hplan
  have hreadable := hsound.readable hcompiles (Planner.make_runs hq htext hplan).1
  obtain ⟨found, hlists, hfound⟩ := hreadable.exists_lists
  have hstatement := hcompiles.statement?_eq 0 none
  have hrun := hreadable.run_eq (hfound 0 none)
  generalize p.statement 0 none = statement at hstatement hrun
  have hanswers : ∀ outcome,
      (statement.isWithinLimits = true → outcome = .ok { rows := found.map fun f => (f.docId, f.revId) }) →
      (statement.isWithinLimits = false → outcome = .error (.sql .tooLarge)) →
      Answers w.store selector sort (Catalog.sorted (xs.map (·.definition))) statement outcome s := by
    intro outcome hwithin hbeyond
    refine ⟨h.store_eq, hsound.holds.definitions, ?_, ⟨p, hplan, hstatement⟩, hbeyond, ?_⟩
    · intro d hd
      obtain ⟨x, hx, rfl⟩ := List.mem_map.mp ((Catalog.sorted_perm _).mem_iff.mp hd)
      exact (hc x hx).2
    · intro hlimits
      obtain ⟨docs, hdocs⟩ := hsound.documents_of_lists hc hq htext hplan hlists
      exact ⟨_, docs, hwithin hlimits, hdocs⟩
  refine after_run hstatement ?_
  have hdatabase : m.host.database s = s.database := by rw [hm]; rfl
  rw [hdatabase, hrun]
  cases hlimits : statement.isWithinLimits with
  | true => exact ⟨statement, hanswers _ (fun _ => rfl) fun hnot => by simp [hlimits] at hnot⟩
  | false => exact ⟨statement, hanswers _ (fun hyes => by simp [hlimits] at hyes) fun _ => rfl⟩

theorem find_answers (h : w.Sound xs) (hstart : ∀ d ∈ Catalog.sorted (xs.map (·.definition)), w.starts d.name = 0)
    (hupdate : settings.updateBeforeFind = true) (hparse : Selector.ofJson? v = .ok selector)
    (htext : selector.isTextFree = true)
    (hplan : Plan.make selector (Catalog.sorted (xs.map (·.definition))) sort = .ok p) (textSearch : Bool) :
    let result := Manager.find { host := Local.host, settings, textSearch } { selector := v, sort }
      { store := w.store, database := w.database }
    ∃ later statement,
      later.map Definition.bare = (Catalog.sorted (xs.map (·.definition))).map Definition.bare ∧
      Answers w.store selector sort later statement result.1 result.2 := by
  have hrequested := Selector.ofJson?_requested hparse
  have hfollows : Local.Follows w { store := w.store, database := w.database } xs := ⟨rfl, h⟩
  refine After.outcome (p := fun outcome t => ∃ later statement,
    later.map Definition.bare = (Catalog.sorted (xs.map (·.definition))).map Definition.bare ∧
    Answers w.store selector sort later statement outcome t) ?_
  unfold Manager.find
  refine after_bind (after_lift hparse ?_)
  refine after_bind (after_lift (v := ()) rfl ?_)
  refine after_bind (after_plan h.holds.definitions hplan ?_)
  have hsearches : p.searches = [] := (Planner.make_runs hrequested htext hplan).1.searches
  refine after_bind (after_look (v := ()) (by rw [hsearches]; rfl) ?_)
  rw [if_pos hupdate]
  refine after_bind ((Update.after_updateAll hfollows settings.updateBatchSize).mono ?_ fun _ _ he => he.elim)
  rintro _ t ⟨ys, hys, hbare, hcheckpoint⟩
  have hsame : (Catalog.sorted (ys.map (·.definition))).map Definition.bare =
      (Catalog.sorted (xs.map (·.definition))).map Definition.bare := Catalog.map_bare_sorted_congr hbare
  have hcaught : World.CaughtUp { w with database := t.database } ys := by
    intro y hy
    obtain ⟨x, hx, hname⟩ := Content.exists_name_of_bare hbare hy
    refine ⟨?_, hcheckpoint y hy⟩
    rw [← hname]
    exact hstart x.definition ((Catalog.sorted_perm _).mem_iff.mpr (List.mem_map_of_mem hx))
  obtain ⟨q, hq⟩ := Plan.make_of_bare hsame hplan
  refine after_bind (after_plan hys.sound.holds.definitions hq ?_)
  refine (after_run_caughtUp rfl hys hcaught hrequested htext hq).mono ?_ ?_
  · rintro _ _ ⟨statement, hanswers⟩
    exact ⟨_, statement, hsame, hanswers⟩
  · rintro _ _ ⟨statement, hanswers⟩
    exact ⟨_, statement, hsame, hanswers⟩

/-- A query with more alternatives than a set operator joins is refused, although it can be planned. -/
theorem find_tooLarge (h : w.Sound xs) (hstart : ∀ d ∈ Catalog.sorted (xs.map (·.definition)), w.starts d.name = 0)
    (hupdate : settings.updateBeforeFind = true) {alternatives : List Selector}
    (hlen : Statement.maxSelects < alternatives.length) (hparse : Selector.ofJson? v = .ok (.or alternatives))
    (htext : (Selector.or alternatives).isTextFree = true)
    (hplan : Plan.make (.or alternatives) (Catalog.sorted (xs.map (·.definition))) sort = .ok p) (textSearch : Bool) :
    (Manager.find { host := Local.host, settings, textSearch } { selector := v, sort }
      { store := w.store, database := w.database }).1 = .error (.sql .tooLarge) := by
  obtain ⟨later, statement, _, hanswers⟩ := find_answers h hstart hupdate hparse htext hplan textSearch
  obtain ⟨q, hq, hstatement⟩ := hanswers.statement_eq
  exact hanswers.refused (Plan.isWithinLimits_of_or hlen hq hstatement)

/-- After any run, a query that can be planned finds the latest revisions of exactly the live documents that satisfy
its selector, if all indexes start with the store and its statement is not too large. -/
theorem find_documents (events : List Event)
    (hdefinitions : (World.run {} events).database.definitions = .ok definitions)
    (hstart : ∀ d ∈ definitions, (World.run {} events).starts d.name = 0)
    (hupdate : settings.updateBeforeFind = true) (hparse : Selector.ofJson? v = .ok selector)
    (htext : selector.isTextFree = true) (hplan : Plan.make selector definitions sort = .ok p) (textSearch : Bool) :
    let w := World.run {} events
    let result := Manager.find { host := Local.host, settings, textSearch } { selector := v, sort }
      { store := w.store, database := w.database }
    ∃ later statement, later.map Definition.bare = definitions.map Definition.bare ∧
      Answers w.store selector sort later statement result.1 result.2 := by
  obtain ⟨xs, h⟩ := World.Sound.empty.run events
  rw [h.holds.definitions] at hdefinitions
  obtain rfl := Except.ok.inj hdefinitions
  exact find_answers h hstart hupdate hparse htext hplan textSearch

/-- A run with an index of ages and two people. -/
def people : List Event :=
  [.ensure { name := "ages", fields := [{ path := "age" }] } "" 0, .create "ann" [("age", .number (.int 40))],
    .create "bob" [("age", .number (.int 12))]]

def ages : Definition := { name := "ages", kind := .value, fields := [{ path := "age" }] }

def adults : Json := .object [("age", .object [("$gt", .number (.int 18))])]

theorem definitions_people : (World.run {} people).database.definitions = .ok [ages] := by
  have hlist : (World.run {} people).database.definitions.toOption = some [ages] := by decide +kernel
  cases h : (World.run {} people).database.definitions with
  | error e => simp [h, Except.toOption] at hlist
  | ok definitions =>
    rw [h] at hlist
    rw [Option.some.inj hlist]

theorem find_documents_adults :
    let w := World.run {} people
    let result := Manager.find { host := Local.host } { selector := adults }
      { store := w.store, database := w.database }
    (∃ later statement, later.map Definition.bare = [ages].map Definition.bare ∧
      Answers w.store (.field "age" (.compare .gt (.number (.int 18)))) [] later statement result.1 result.2) ∧
    result.1.toOption = some { rows := [("ann", "1-000001")] } :=
  ⟨find_documents people definitions_people (by decide +kernel) rfl rfl rfl rfl true, by decide +kernel⟩

def older : Selector := .field "age" (.compare .gt (.number (.int 0)))

def olderJson : Json := .object [("age", .object [("$gt", .number (.int 0))])]

def repeated (n : Nat) : Json := .object [("$or", .array (List.replicate n olderJson))]

theorem ofJson?_repeated (n : Nat) :
    Selector.ofJson? (repeated (n + 1)) = .ok (.or (List.replicate (n + 1) older)) :=
  Selector.ofJson?_or_replicate rfl n

theorem isTextFree_repeated (n : Nat) : (Selector.or (List.replicate n older)).isTextFree = true :=
  Selector.isTextFree_or_replicate rfl n

theorem make_repeated (n : Nat) : ∃ p, Plan.make (.or (List.replicate (n + 1) older)) [ages] [] = .ok p :=
  Plan.exists_make_or_replicate (q := { root := .scan ages older.conditions, orderIndex := ages }) rfl n

theorem not_find_documents_repeated : ¬ ∀ (events : List Event) (settings : ManagerSettings) (textSearch : Bool)
    (definitions : List Definition) (v : Json) (selector : Selector) (sort : List SortKey) (p : Plan),
    (World.run {} events).database.definitions = .ok definitions →
    (∀ d ∈ definitions, (World.run {} events).starts d.name = 0) → settings.updateBeforeFind = true →
    Selector.ofJson? v = .ok selector → selector.isTextFree = true → Plan.make selector definitions sort = .ok p →
    let w := World.run {} events
    let result := Manager.find { host := Local.host, settings, textSearch } { selector := v, sort }
      { store := w.store, database := w.database }
    ∃ later found docs, result.2.database.definitions = .ok later ∧ result.1 = .ok found ∧
      found.documents (fun docId revId => .ok (w.store.revision? docId revId)) = .ok docs ∧
      ∀ r, r ∈ docs ↔
        w.store.winning? r.docId = some r ∧ r.deleted = false ∧ selector.SatisfiedBy later sort r := by
  intro h
  obtain ⟨p, hp⟩ := make_repeated 500
  have hstarts : ∀ d ∈ [ages], (World.run {} people).starts d.name = 0 := by decide +kernel
  obtain ⟨later, found, docs, _, hfound, _⟩ := h people {} true [ages] (repeated 501) _ [] p definitions_people
    hstarts rfl (ofJson?_repeated 500) (isTextFree_repeated 501) hp
  obtain ⟨xs, hsound⟩ := World.Sound.empty.run people
  have hdefinitions : [ages] = Catalog.sorted (xs.map (·.definition)) := by
    have hsorted := hsound.holds.definitions
    rw [definitions_people] at hsorted
    exact Except.ok.inj hsorted
  rw [hdefinitions] at hstarts hp
  have hupdate : ({} : ManagerSettings).updateBeforeFind = true := rfl
  have hlen : Statement.maxSelects < (List.replicate 501 older).length := by
    rw [List.length_replicate]
    decide
  have hrefused := find_tooLarge hsound hstarts hupdate hlen (ofJson?_repeated 500) (isTextFree_repeated 501) hp true
  rw [hrefused] at hfound
  cases hfound

end Manager

end DocIndex
