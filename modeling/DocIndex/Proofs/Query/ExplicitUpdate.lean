import DocIndex.Proofs.Query.Refusals

/-! # Updates before queries

A query that brings indexes up to date before it is answered gives what it would give if they had been brought up to
date before and it left them alone. It is checked before the update, and there planned once more; the other is checked
and planned only after it. An update changes rows, types of fields and checkpoints. None of these counts when a query is
checked, and the plan that is run is made after the update by both.
-/

namespace DocIndex

/-! ## What an update leaves of tables -/

namespace Table

variable {t u : Table}

def frame (t : Table) : Table := { t with rows := [], worded := false }

theorem eq_of_frame (h : u.frame = t.frame) :
    u.name = t.name ∧ u.form = t.form ∧ u.lost = t.lost ∧ u.allColumns = t.allColumns ∧ u.checkOpen = t.checkOpen := by
  have hall : ∀ {α : Type} (f : Table → α), f u.frame = f t.frame := fun f => congrArg f h
  exact ⟨hall name, hall form, hall lost, hall allColumns, hall checkOpen⟩

theorem frame_of_erase? {docId : String} (h : t.erase? docId = .ok u) : u.frame = t.frame := by
  obtain ⟨rows, _, h⟩ := ok_of_bind h
  simp only at h
  split at h
  · rw [← Except.ok.inj h]
  · obtain ⟨_, _, h⟩ := ok_of_bind h
    obtain ⟨_, _, h⟩ := ok_of_bind h
    rw [← Except.ok.inj h]
    rfl

theorem frame_of_append? {rows : List Row} (h : t.append? rows = .ok u) : u.frame = t.frame := by
  obtain ⟨_, _, h⟩ := ok_of_bind h
  rw [← Except.ok.inj h]
  rfl

end Table

namespace Database

variable {db next last : Database} {d : Definition} {r : Revision}

/-- The one database has the tables of the other, up to their rows. -/
def SameFrames (db next : Database) : Prop :=
  ∀ name, (next.tables.find? (·.name == name)).map Table.frame = (db.tables.find? (·.name == name)).map Table.frame

theorem SameFrames.refl (db : Database) : db.SameFrames db := fun _ => rfl

theorem SameFrames.symm (h : db.SameFrames next) : next.SameFrames db := fun name => (h name).symm

theorem SameFrames.trans (h : db.SameFrames next) (h' : next.SameFrames last) : db.SameFrames last :=
  fun name => (h' name).trans (h name)

theorem sameFrames_of_modifyTable {name : String} {change : Table → Except SqlFault Table}
    (hc : ∀ t u, change t = .ok u → u.frame = t.frame) (h : db.modifyTable name change = .ok next) :
    db.SameFrames next := by
  obtain ⟨t, ht, h⟩ := ok_of_bind h
  obtain ⟨changed, hchanged, h⟩ := ok_of_bind h
  obtain rfl := Except.ok.inj h
  have hframe := hc t changed hchanged
  have hfound : db.tables.find? (·.name == name) = some t := by
    unfold table? at ht
    split at ht
    · rename_i u hu
      obtain ⟨_, _, ht⟩ := ok_of_bind ht
      rw [hu, Except.ok.inj ht]
    · cases ht
  have hname : changed.name = name := by
    have hfirst := List.find?_some hfound
    rw [(Table.eq_of_frame hframe).1, beq_iff_eq.mp hfirst]
  intro other
  have hkey : ((fun u : Table => u.name == other) ∘ fun u => if u.name = name then changed else u) =
      fun u => u.name == other := by
    funext u
    simp only [Function.comp_apply]
    split
    · rw [hname, ‹u.name = name›]
    · rfl
  rw [List.find?_map, hkey, Option.map_map]
  cases hu : db.tables.find? (·.name == other) with
  | none => rfl
  | some u =>
    by_cases hother : u.name = name
    · have hfirst := List.find?_some hu
      rw [← beq_iff_eq.mp hfirst, hother, hfound] at hu
      obtain rfl := Option.some.inj hu
      simp [hother, hframe]
    · simp [hother]

theorem sameFrames_of_applyChange {e : Definition} (h : db.applyChange d r = .ok (next, e)) : db.SameFrames next := by
  obtain ⟨cleared, hcleared, h⟩ := ok_of_bind h
  have hframes := sameFrames_of_modifyTable (fun _ _ => Table.frame_of_erase?) hcleared
  split at h
  · obtain ⟨rfl, _⟩ := Prod.mk.inj (Except.ok.inj h)
    exact hframes
  · obtain ⟨filled, hfilled, h⟩ := ok_of_bind h
    obtain ⟨rfl, _⟩ := Prod.mk.inj (Except.ok.inj h)
    have hfilled := sameFrames_of_modifyTable (fun _ _ => Table.frame_of_append?) hfilled
    exact hframes.trans hfilled

theorem sameFrames_of_applyChanges {changes : List Revision} (h : applyChanges d changes db = .ok next) :
    db.SameFrames next := by
  induction changes generalizing d db with
  | nil =>
    obtain rfl := Except.ok.inj h
    exact .refl db
  | cons r rest ih =>
    obtain ⟨⟨changed, e⟩, hchange, h⟩ := ok_of_bind h
    exact (sameFrames_of_applyChange hchange).trans (ih h)

theorem sameFrames_of_applyBatch {index : String} {since checkpoint : Int} {changes : List Revision}
    (h : db.applyBatch index since changes checkpoint = .ok (.applied next)) : db.SameFrames next := by
  obtain ⟨d?, _, h⟩ := ok_of_bind h
  cases d? with
  | none => cases h
  | some d =>
    simp only at h
    split at h
    · cases h
    · obtain ⟨changed, hchanged, h⟩ := ok_of_bind h
      obtain rfl := BatchOutcome.applied.inj (Except.ok.inj h)
      have hframes := sameFrames_of_applyChanges (lift_ok hchanged)
      exact hframes

end Database

/-! ## Searches are accepted as before -/

theorem Table.matching?_succeeds {t : Table} {f : FullTextForm} (hform : t.form = .fullText f) (hlost : t.lost = [])
    (search : String) : (∃ rows, t.matching? search = .ok rows) ↔
      (SearchExpression.read? f t.allColumns search).isSome = true := by
  unfold matching?
  rw [hform]
  simp only
  cases SearchExpression.read? f t.allColumns search with
  | none => exact iff_of_false (not_succeeds_error _) (by simp)
  | some e =>
    have hsearchable : t.checkSearchable e = .ok () := by
      unfold checkSearchable
      simp [hlost]
    simp only [hsearchable, bind, Except.bind]
    exact iff_of_true (succeeds_ok _) rfl

namespace Database

variable {db next : Database} {d e : Definition} {t : Table} {search : String}

theorem checkSearch_ok_iff : db.checkSearch d search = .ok () ↔ db.Accepts d search := by
  have htry : Succeeds (db.trySearch d search) ↔ db.Accepts d search := by
    rw [trySearch, succeeds_bind]
    simp only [succeeds_bind_total fun _ => succeeds_ok _]
    exact ⟨fun ⟨t, ht, rows, hrows⟩ => ⟨t, rows, ht, hrows⟩, fun ⟨t, rows, ht, hrows⟩ => ⟨t, ht, rows, hrows⟩⟩
  rw [← htry]
  unfold checkSearch
  cases db.trySearch d search with
  | ok _ => exact iff_of_true rfl (succeeds_ok _)
  | error e => cases e <;> exact iff_of_false nofun (not_succeeds_error _)

theorem SameFrames.table? {name : String} (h : db.SameFrames next) (ht : db.table? name = .ok t) :
    ∃ u, next.table? name = .ok u ∧ u.frame = t.frame := by
  have hframe := h name
  unfold Database.table? at ht ⊢
  cases hfind : db.tables.find? (·.name == name) with
  | none => simp [hfind] at ht
  | some t' =>
    simp only [hfind] at ht
    obtain ⟨_, hopen, ht⟩ := ok_of_bind ht
    obtain rfl := Except.ok.inj ht
    rw [hfind, Option.map_some] at hframe
    obtain ⟨u, hu, hsame⟩ := Option.map_eq_some_iff.mp hframe
    obtain ⟨_, _, _, _, hopen'⟩ := Table.eq_of_frame hsame
    exact ⟨u, by simp only [hu, hopen', hopen, bind, Except.bind], hsame⟩

/-- The table of an index is a full-text table with all of its parts. -/
def Searchable (db : Database) (d : Definition) : Prop :=
  ∃ t f, db.table? d.tableName = .ok t ∧ t.form = .fullText f ∧ t.lost = []

theorem Holds.searchable {x : Content} {xs : List Content} (h : db.Holds xs) (hx : x ∈ xs)
    (hk : x.definition.kind = .text) : db.Searchable x.definition := by
  obtain ⟨t, _, ht, htable⟩ := h.table? hx
  have hfits := ht.fits
  rw [hk] at hfits
  cases hform : t.form with
  | ordinary =>
    rw [hform] at hfits
    exact hfits.elim
  | fullText f => exact ⟨t, f, htable, hform, ht.lost_eq⟩

/-- What the rows of a table are does not count for the searches that it accepts. -/
theorem SameFrames.accepts (h : db.SameFrames next) (hd : db.Searchable d) (hname : e.tableName = d.tableName)
    (haccepts : db.Accepts d search) : next.Accepts e search := by
  obtain ⟨t, f, ht, hform, hlost⟩ := hd
  obtain ⟨_, rows, ht', hrows⟩ := haccepts
  rw [ht] at ht'
  obtain rfl := Except.ok.inj ht'
  obtain ⟨u, hu, hsame⟩ := h.table? ht
  obtain ⟨_, hform', hlost', hcolumns, _⟩ := Table.eq_of_frame hsame
  have hread := (Table.matching?_succeeds hform hlost search).mp ⟨rows, hrows⟩
  rw [← hcolumns] at hread
  obtain ⟨found, hfound⟩ := (Table.matching?_succeeds (hform'.trans hform) (hlost'.trans hlost) search).mpr hread
  exact ⟨u, found, by rw [hname]; exact hu, hfound⟩

end Database

/-! ## Searches of a plan -/

namespace Selector

mutual

def searchTexts : Selector → List String
  | .and parts => searchTextsOf parts
  | .or parts => searchTextsOf parts
  | .field _ _ => []
  | .text search => [search]

def searchTextsOf : List Selector → List String
  | [] => []
  | s :: rest => s.searchTexts ++ searchTextsOf rest

end

end Selector

namespace Planner

open PlanNode

variable {definitions : List Definition} {sort : List SortKey} {x : Definition × String}

theorem searches_of_conclude {parts : Parts} {n : PlanNode} (h : conclude definitions sort parts = .ok n) :
    n.searches = searchesOf parts.nodes := by
  have hintersection : ∀ ns, (intersection ns).searches = searchesOf ns := by
    intro ns
    rcases ns with _ | ⟨n, _ | ⟨m, rest⟩⟩ <;> simp [intersection, searches, searchesOf]
  rcases conclude_ok h with ⟨_, _, rfl⟩ | ⟨_, d, _, rfl⟩
  · exact hintersection _
  · rw [hintersection, searchesOf, searches, List.nil_append]

theorem searchesOf_append (ns ms : List PlanNode) : searchesOf (ns ++ ms) = searchesOf ns ++ searchesOf ms := by
  induction ns with
  | nil => rfl
  | cons n rest ih => rw [List.cons_append, searchesOf, searchesOf, ih, List.append_assoc]

/-- The search of a text goes to the first text index. -/
def IsSearch (definitions : List Definition) (texts : List String) (x : Definition × String) : Prop :=
  x.2 ∈ texts ∧ definitions.find? (·.kind == .text) = some x.1

theorem isSearch_append {texts more : List String} :
    IsSearch definitions (texts ++ more) x ↔ IsSearch definitions texts x ∨ IsSearch definitions more x := by
  rw [IsSearch, IsSearch, IsSearch, List.mem_append, or_and_right]

mutual

theorem mem_searches_of_gather : ∀ (s : Selector) {parts : Parts}, gather definitions sort s = .ok parts →
    (x ∈ searchesOf parts.nodes ↔ IsSearch definitions s.searchTexts x)
  | .and ss, parts, h => mem_searches_of_gatherAll ss h
  | .or ss, parts, h => by
    obtain ⟨nodes, hnodes, rfl⟩ := gather_or_ok h
    rw [searchesOf, searchesOf, List.append_nil, searches, Selector.searchTexts]
    exact mem_searches_of_alternatives ss hnodes
  | .field path condition, parts, h => by
    obtain rfl := Except.ok.inj h
    simp [IsSearch, searchesOf, Selector.searchTexts]
  | .text search, parts, h => by
    rw [gather] at h
    cases hfind : definitions.find? (·.kind == .text) with
    | none => simp [hfind] at h
    | some d =>
      simp only [hfind] at h
      obtain rfl := Except.ok.inj h
      obtain ⟨e, text⟩ := x
      simp [IsSearch, searchesOf, searches, Selector.searchTexts, hfind, and_comm, eq_comm]

theorem mem_searches_of_gatherAll : ∀ (ss : List Selector) {parts : Parts},
    gatherAll definitions sort ss = .ok parts →
    (x ∈ searchesOf parts.nodes ↔ IsSearch definitions (Selector.searchTextsOf ss) x)
  | [], parts, h => by
    obtain rfl := Except.ok.inj h
    simp [IsSearch, searchesOf, Selector.searchTextsOf]
  | s :: rest, parts, h => by
    obtain ⟨first, more, hfirst, hmore, rfl⟩ := gatherAll_cons_ok h
    rw [searchesOf_append, List.mem_append, mem_searches_of_gather s hfirst, mem_searches_of_gatherAll rest hmore,
      Selector.searchTextsOf, isSearch_append]

theorem mem_searches_of_alternatives : ∀ (ss : List Selector) {nodes : List PlanNode},
    alternatives definitions sort ss = .ok nodes →
    (x ∈ searchesOf nodes ↔ IsSearch definitions (Selector.searchTextsOf ss) x)
  | [], nodes, h => by
    obtain rfl := Except.ok.inj h
    simp [IsSearch, searchesOf, Selector.searchTextsOf]
  | s :: rest, nodes, h => by
    obtain ⟨parts, first, more, hparts, hfirst, hmore, rfl⟩ := alternatives_cons_ok h
    rw [searchesOf, List.mem_append, searches_of_conclude hfirst, mem_searches_of_gather s hparts,
      mem_searches_of_alternatives rest hmore, Selector.searchTextsOf, isSearch_append]

end

theorem mem_searches_of_make {s : Selector} {p : Plan} (h : Plan.make s definitions sort = .ok p) :
    x ∈ p.searches ↔ IsSearch definitions s.searchTexts x := by
  obtain ⟨parts, hparts, hroot, _, _⟩ := make_ok h
  rw [Plan.searches, searches_of_conclude hroot, mem_searches_of_gather s hparts]

end Planner

/-! ## Admission before and after an update -/

namespace Definition

theorem exists_find?_of_bare {ds es : List Definition} {e : Definition} (h : es.map bare = ds.map bare)
    (he : es.find? (·.kind == .text) = some e) : ∃ d, ds.find? (·.kind == .text) = some d ∧ d.bare = e.bare := by
  have hkind : ∀ ds : List Definition, (ds.map bare).find? (·.kind == .text) = (ds.find? (·.kind == .text)).map bare :=
    fun ds => List.find?_map
  have hfind : (ds.find? (·.kind == .text)).map bare = some e.bare := by
    rw [← hkind, ← h, hkind, he, Option.map_some]
  exact Option.map_eq_some_iff.mp hfind

end Definition

/-- Two databases have the same indexes, which may differ in types, checkpoints and rows. -/
structure Database.SameIndexes (db next : Database) : Prop where
  contents : ∃ xs ys, db.Holds xs ∧ next.Holds ys ∧
    ys.map (fun y => y.definition.bare) = xs.map fun x => x.definition.bare
  frames : db.SameFrames next

namespace Database

variable {db next : Database} {q : Query} {p : Plan}

theorem SameIndexes.symm (h : db.SameIndexes next) : next.SameIndexes db := by
  obtain ⟨xs, ys, hdb, hnext, hbare⟩ := h.contents
  exact ⟨⟨ys, xs, hnext, hdb, hbare.symm⟩, h.frames.symm⟩

theorem checkSearches_ok_iff {searches : List (Definition × String)} :
    Manager.checkSearches db searches = .ok () ↔ ∀ x ∈ searches, db.Accepts x.1 x.2 := by
  induction searches with
  | nil => exact iff_of_true rfl (by simp)
  | cons x rest ih =>
    obtain ⟨d, search⟩ := x
    rw [List.forall_mem_cons, ← ih, ← checkSearch_ok_iff, Manager.checkSearches]
    cases db.checkSearch d search with
    | ok _ => exact ⟨fun h => ⟨rfl, h⟩, fun h => h.2⟩
    | error e => exact iff_of_false nofun nofun

theorem admit?_ok_iff : q.admit? db = .ok p ↔ ∃ selector definitions, Selector.ofJson? q.selector = .ok selector ∧
    q.validate = .ok () ∧ db.definitions = .ok definitions ∧ Plan.make selector definitions q.sort = .ok p ∧
    ∀ x ∈ p.searches, db.Accepts x.1 x.2 := by
  unfold Query.admit?
  constructor
  · intro h
    obtain ⟨selector, hselector, h⟩ := ok_of_bind h
    obtain ⟨_, hvalidate, h⟩ := ok_of_bind h
    obtain ⟨definitions, hdefinitions, h⟩ := ok_of_bind h
    obtain ⟨first, hfirst, h⟩ := ok_of_bind h
    obtain ⟨_, hsearches, h⟩ := ok_of_bind h
    obtain rfl := Except.ok.inj h
    exact ⟨selector, definitions, hselector, hvalidate, hdefinitions, hfirst, checkSearches_ok_iff.mp hsearches⟩
  · rintro ⟨selector, definitions, hselector, hvalidate, hdefinitions, hp, hsearches⟩
    simp only [hselector, hvalidate, hdefinitions, hp, checkSearches_ok_iff.mpr hsearches, bind, Except.bind]

theorem SameIndexes.exists_admit? (h : db.SameIndexes next) (hp : q.admit? db = .ok p) :
    ∃ r, q.admit? next = .ok r := by
  obtain ⟨xs, ys, hdb, hnext, hbare⟩ := h.contents
  obtain ⟨selector, definitions, hselector, hvalidate, hdefinitions, hmake, hsearches⟩ := admit?_ok_iff.mp hp
  rw [hdb.definitions] at hdefinitions
  obtain rfl := Except.ok.inj hdefinitions
  have hsorted := Catalog.map_bare_sorted_congr hbare
  obtain ⟨r, hr⟩ := Plan.make_of_bare hsorted hmake
  refine ⟨r, admit?_ok_iff.mpr ⟨selector, _, hselector, hvalidate, hnext.definitions, hr, fun x hx => ?_⟩⟩
  obtain ⟨htext, hfirst⟩ := (Planner.mem_searches_of_make hr).mp hx
  obtain ⟨d, hd, hsame⟩ := Definition.exists_find?_of_bare hsorted hfirst
  have haccepts := hsearches (d, x.2) ((Planner.mem_searches_of_make hmake).mpr ⟨htext, hd⟩)
  obtain ⟨z, hz, rfl⟩ := List.mem_map.mp ((Catalog.sorted_perm _).mem_iff.mp (List.mem_of_find?_eq_some hd))
  have hkind := List.find?_some hd
  have hname : z.definition.bare.name = x.1.bare.name := congrArg Definition.name hsame
  exact h.frames.accepts (hdb.searchable hz (beq_iff_eq.mp hkind)) (congrArg tableNameOf hname.symm) haccepts

end Database

/-! ## The two ways to update -/

namespace Session

theorem preserves_sameIndexes (patience : Nat) (xs : List Content) (db : Database) :
    (Session.host patience).Preserves fun s => Serves xs s ∧ db.SameFrames s.world.database where
  currentSequence s hs := by
    refine ⟨hs.1.left, ?_⟩
    show db.SameFrames s.left.world.database
    rw [left_database hs.1.alone]
    exact hs.2
  changesSince since limit s hs := by
    refine ⟨⟨hs.1.left.holds, hs.1.left.alone⟩, ?_⟩
    show db.SameFrames s.left.world.database
    rw [left_database hs.1.alone]
    exact hs.2
  applyBatch s index since page next hs hbatch :=
    ⟨hs.1.applyBatch hbatch, hs.2.trans (Database.sameFrames_of_applyBatch hbatch)⟩

end Session

namespace Manager

open DocIndex.Action

variable {σ : Type} {m : Manager σ} {s t : σ} {q : Query} {p : Plan} {e : QueryError}

def updating (m : Manager σ) (on : Bool) : Manager σ :=
  { m with settings := { m.settings with updateBeforeFind := on } }

/-- Bring all indexes up to date, then answer a query from them as they are. -/
def updateThenFind (m : Manager σ) (q : Query) : Action σ ResultSet := do
  m.updateAll
  (m.updating false).find q

theorem find_eq_error (h : q.admit? (m.host.database s) = .error e) : m.find q s = (.error e, s) := by
  refine After.eq (b := throw e) (after_find (fun d hd => ?_) fun _ _ _ _ _ _ hadmit => ?_)
  · rw [h] at hd
    rw [Except.error.inj hd]
    rfl
  · rw [h] at hadmit
    cases hadmit

theorem find_eq_finish (h : q.admit? (m.host.database s) = .ok p) :
    ∃ selector definitions, Selector.ofJson? q.selector = .ok selector ∧
      (m.host.database s).definitions = .ok definitions ∧ Plan.make selector definitions q.sort = .ok p ∧
      m.find q s = m.finish q selector p s := by
  obtain ⟨selector, definitions, hselector, _, hdefinitions, hp, _⟩ := Database.admit?_ok_iff.mp h
  refine ⟨selector, definitions, hselector, hdefinitions, hp, ?_⟩
  refine After.eq (after_find (fun d hd => ?_) fun other _ r hother _ _ hadmit => ?_)
  · rw [h] at hd
    cases hd
  · rw [hselector] at hother
    rw [h] at hadmit
    rw [Except.ok.inj hother, Except.ok.inj hadmit]
    exact after_self _ _

theorem finish_updating_true (m : Manager σ) (q : Query) (selector : Selector) (p : Plan) :
    (m.updating true).finish q selector p = (do
      m.updateAll
      let second ← m.plan selector q.sort
      m.run q second) := rfl

theorem finish_updating_false (m : Manager σ) (q : Query) (selector : Selector) (p : Plan) :
    (m.updating false).finish q selector p = m.run q p := rfl

theorem plan_eq {selector : Selector} {definitions : List Definition} {sort : List SortKey}
    (hd : (m.host.database s).definitions = .ok definitions) (hp : Plan.make selector definitions sort = .ok p) :
    m.plan selector sort s = (.ok p, s) :=
  After.eq (b := pure p) (after_plan hd hp rfl)

section

variable {patience : Nat} {m : Manager Session} {s : Session} {xs : List Content}

theorem after_updateAll (hm : m.host = Session.host patience) (hholds : s.world.database.Holds xs)
    (halone : ∀ g ∈ s.script, ∀ e ∈ g.before ++ g.after, e.IsWrite) :
    After m.updateAll s (fun _ t => s.world.database.SameIndexes t.world.database)
      fun _ t => s.world.database.SameIndexes t.world.database := by
  have hleads : ∀ t : Session, Session.Serves xs t ∧ s.world.database.SameFrames t.world.database →
      s.world.database.SameIndexes t.world.database := by
    rintro t ⟨⟨⟨ys, hys, hbare⟩, _⟩, hframes⟩
    exact ⟨⟨xs, ys, hholds, hys, hbare⟩, hframes⟩
  have hpreserves := Session.preserves_sameIndexes patience xs s.world.database
  rw [← hm] at hpreserves
  have hkeeps : m.updateAll.Keeps fun t => Session.Serves xs t ∧ s.world.database.SameFrames t.world.database :=
    Update.keeps_updateAll hpreserves
  exact (hkeeps s ⟨⟨⟨xs, hholds, rfl⟩, halone⟩, .refl _⟩).mono (fun _ => hleads) fun _ => hleads

/-- A query that is admitted comes to the same in both ways, whether it succeeds or fails. -/
theorem find_eq_updateThenFind (hm : m.host = Session.host patience) (hholds : s.world.database.Holds xs)
    (halone : ∀ g ∈ s.script, ∀ e ∈ g.before ++ g.after, e.IsWrite) (hp : q.admit? s.world.database = .ok p) :
    (m.updating true).find q s = m.updateThenFind q s := by
  have hdatabase : ∀ t, m.host.database t = t.world.database := by
    intro t
    rw [hm]
    rfl
  obtain ⟨selector, _, hselector, _, _, hfind⟩ :=
    find_eq_finish (m := m.updating true) (s := s) (by rw [← hdatabase] at hp; exact hp)
  rw [hfind, finish_updating_true, updateThenFind, bind_apply, bind_apply]
  rcases hupdate : m.updateAll s with ⟨_ | _, t⟩
  · rfl
  · obtain ⟨r, hr⟩ := ((after_updateAll hm hholds halone).of_ok hupdate).exists_admit? hp
    obtain ⟨other, definitions, hother, hdefinitions, hmake, hfind'⟩ :=
      find_eq_finish (m := m.updating false) (s := t) (by rw [← hdatabase] at hr; exact hr)
    rw [hselector] at hother
    obtain rfl := Except.ok.inj hother
    simp only [hfind', finish_updating_false]
    rw [bind_apply, plan_eq (m := m) hdefinitions hmake]

theorem admit?_of_updateThenFind {found : ResultSet} {t : Session} (hm : m.host = Session.host patience)
    (hholds : s.world.database.Holds xs) (halone : ∀ g ∈ s.script, ∀ e ∈ g.before ++ g.after, e.IsWrite)
    (h : m.updateThenFind q s = (.ok found, t)) : ∃ p, q.admit? s.world.database = .ok p := by
  rw [updateThenFind, bind_apply] at h
  rcases hupdate : m.updateAll s with ⟨_ | _, u⟩
  · rw [hupdate] at h
    cases h
  · simp only [hupdate] at h
    have hsame := (after_updateAll hm hholds halone).of_ok hupdate
    cases hadmit : q.admit? u.world.database with
    | ok r => exact hsame.symm.exists_admit? hadmit
    | error e =>
      have hdatabase : (m.updating false).host.database u = u.world.database := by
        show m.host.database u = _
        rw [hm]
        rfl
      rw [find_eq_error (by rw [hdatabase]; exact hadmit)] at h
      cases h

end

theorem after_run_reads (m : Manager σ) (q : Query) (p : Plan) (s : σ) :
    After (m.run q p) s (fun found t => t = s ∧ ∃ statement, p.statement? q.skip q.limit? = .ok statement ∧
      statement.run (m.host.database s) = .ok found.rows) fun _ _ => True := by
  unfold run
  refine after_bind (after_lift_cases (fun statement hstatement => ?_) fun _ _ => trivial)
  generalize statement.fragment.mapError QueryError.malformedFragment = fragment
  refine after_bind (after_lift_cases (fun _ _ => ?_) fun _ _ => trivial)
  refine after_bind (after_look_cases (fun rows hrows => ?_) fun _ _ => trivial)
  exact after_pure ⟨rfl, statement, hstatement, Database.lift_ok hrows⟩

theorem planned_of_find {found : ResultSet} (h : m.find q s = (.ok found, t)) :
    ∃ selector definitions p statement, Selector.ofJson? q.selector = .ok selector ∧
      (m.host.database t).definitions = .ok definitions ∧ Plan.make selector definitions q.sort = .ok p ∧
      p.statement? q.skip q.limit? = .ok statement ∧ statement.run (m.host.database t) = .ok found.rows := by
  suffices hafter : After (m.find q) s (fun found t => ∃ selector definitions p statement,
      Selector.ofJson? q.selector = .ok selector ∧ (m.host.database t).definitions = .ok definitions ∧
      Plan.make selector definitions q.sort = .ok p ∧ p.statement? q.skip q.limit? = .ok statement ∧
      statement.run (m.host.database t) = .ok found.rows) fun _ _ => True from hafter.of_ok h
  refine after_find (fun _ _ => trivial) fun selector definitions p hselector hdefinitions hp _ => ?_
  unfold finish
  split
  · refine after_bind ((after_self m.updateAll s).mono (fun _ u _ => ?_) fun _ _ _ => trivial)
    refine after_bind (after_bind (after_look_cases (fun later hlater => ?_) fun _ _ => trivial))
    refine after_lift_cases (fun r hr => ?_) fun _ _ => trivial
    refine (after_run_reads m q r u).mono (fun found t hread => ?_) fun _ _ _ => trivial
    obtain ⟨rfl, statement, hstatement, hrun⟩ := hread
    exact ⟨selector, later, r, statement, hselector, hlater, hr, hstatement, hrun⟩
  · refine (after_run_reads m q p s).mono (fun found t hread => ?_) fun _ _ _ => trivial
    obtain ⟨rfl, statement, hstatement, hrun⟩ := hread
    exact ⟨selector, definitions, p, statement, hselector, hdefinitions, hp, hstatement, hrun⟩

end Manager

namespace World

/-- After any visits to an empty database, while others do no more than write to the store: a query that updates indexes
first finds the same rows, and leaves the same world, as an update of all indexes and then the query without one. If the
query is admitted the two come to the same even if they fail. What is found is read from the database that is left, by a
plan over the definitions there, with all types of fields that the update has fixed. -/
theorem visited_find_updating (visits : List Visit) (v : Visit) (halone : v.IsAlone) (q : Query) :
    (∀ p, q.admit? (visited {} visits).database = .ok p →
      (v.manager.updating true).find q (v.session (visited {} visits)) =
        v.manager.updateThenFind q (v.session (visited {} visits))) ∧
    (∀ found t, (v.manager.updating true).find q (v.session (visited {} visits)) = (.ok found, t) ↔
      v.manager.updateThenFind q (v.session (visited {} visits)) = (.ok found, t)) ∧
    ∀ found t, (v.manager.updating true).find q (v.session (visited {} visits)) = (.ok found, t) →
      ∃ selector definitions p statement, Selector.ofJson? q.selector = .ok selector ∧
        t.world.database.definitions = .ok definitions ∧ Plan.make selector definitions q.sort = .ok p ∧
        p.statement? q.skip q.limit? = .ok statement ∧ statement.run t.world.database = .ok found.rows := by
  obtain ⟨xs, hholds, _⟩ := orderly_visited (w := {}) .empty visits
  generalize visited {} visits = w at hholds
  have hsame : ∀ p, q.admit? w.database = .ok p →
      (v.manager.updating true).find q (v.session w) = v.manager.updateThenFind q (v.session w) :=
    fun p hp => Manager.find_eq_updateThenFind rfl hholds halone hp
  refine ⟨hsame, fun found t => ⟨fun h => ?_, fun h => ?_⟩, fun found t h => Manager.planned_of_find h⟩
  · cases hadmit : q.admit? w.database with
    | ok p => rw [← hsame p hadmit, h]
    | error e =>
      rw [Manager.find_eq_error hadmit] at h
      cases h
  · obtain ⟨p, hp⟩ := Manager.admit?_of_updateThenFind (s := v.session w) rfl hholds halone h
    rw [hsame p hp, h]

/-- Ann comes when the index of ages is brought up to date, and only then it is known that ages are numbers. -/
def late : Visit :=
  { call := .updateAll, script := [{ before := [.create "ann" [("age", .number (.int 40))]] }] }

/-- A query for those whose age is not below a text. A number is below all texts, but for ages no text counts. -/
def notBelow : Query :=
  { selector := .object [("age", .object [("$not", .object [("$lt", .string "a")])])] }

theorem visited_find_updating_late :
    (late.manager.updateThenFind notBelow (late.session (visited {} aged))).1.toOption =
      some { rows := [("ann", "1-000001")] } := by
  obtain ⟨_, hiff, _⟩ := visited_find_updating aged late (by simp [Visit.IsAlone, late, Event.IsWrite]) notBelow
  have hfound : ((late.manager.updating true).find notBelow (late.session (visited {} aged))).1.toOption =
      some { rows := [("ann", "1-000001")] } := by decide +kernel
  rcases hfind : (late.manager.updating true).find notBelow (late.session (visited {} aged)) with ⟨r, t⟩
  rw [hfind] at hfound
  obtain rfl := ok_of_toOption hfound
  rw [(hiff _ t).mp hfind]
  rfl

end World

end DocIndex
