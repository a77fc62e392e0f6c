import DocIndex.Maintenance.Visits
import DocIndex.Proofs.Maintenance.Calls

/-! # Databases that managers can reach

A visit is one call of some manager, with what others do around its requests and with the requests that fail. After
any sequence of visits that begins with an empty database, the tables are those of the definitions, and the definitions
are valid together. Each visit that declares or deletes an index is atomic.
-/

namespace DocIndex

namespace Call

def Declares (name : String) : Call → Prop
  | .ensure spec _ => spec.name = name
  | .deleteIndex index => index = name
  | _ => False

end Call

namespace Visit

structure DeletesOnly (mayGo : String → Prop) (v : Visit) : Prop where
  call : ∀ name, v.call = .deleteIndex name → mayGo name
  others : ∀ g ∈ v.script, ∀ e ∈ g.before ++ g.after, e.DeletesOnly mayGo

theorem deletesOnly_true (v : Visit) : v.DeletesOnly fun _ => True :=
  ⟨fun _ _ => trivial, fun _ _ e _ => e.deletesOnly_true⟩

/-- Others only write to the store. -/
def IsAlone (v : Visit) : Prop := ∀ g ∈ v.script, ∀ e ∈ g.before ++ g.after, e.IsWrite

end Visit

namespace Session

variable {s : Session}

/-- A call under way in a world with some property, which others will keep. -/
structure Keeps (p : Database → Prop) (mayGo : String → Prop) (s : Session) : Prop where
  database : p s.world.database
  spared : ∀ g ∈ s.script, ∀ e ∈ g.before ++ g.after, e.DeletesOnly mayGo

theorem Keeps.left {p : Database → Prop} {mayGo : String → Prop} (hp : Database.Kept p mayGo) (h : s.Keeps p mayGo) :
    s.left.Keeps p mayGo := by
  have hgap : ∀ e ∈ s.gap.before ++ s.gap.after, e.DeletesOnly mayGo := by
    unfold gap
    cases hscript : s.script with
    | nil => exact fun e he => absurd he List.not_mem_nil
    | cons g rest => exact h.spared g (by rw [hscript]; exact List.mem_cons_self)
  refine ⟨?_, fun g hg => h.spared g (List.mem_of_mem_tail hg)⟩
  refine World.run_keeps hp (World.run_keeps hp h.database ?_) ?_
  · exact fun e he => hgap e (List.mem_append_left _ he)
  · exact fun e he => hgap e (List.mem_append_right _ he)

theorem preserves {p : Database → Prop} {mayGo : String → Prop} (hp : Database.Kept p mayGo) (patience : Nat) :
    (Session.host patience).Preserves fun s => s.Keeps p mayGo where
  currentSequence _ hs := hs.left hp
  changesSince _ _ _ hs := ⟨(hs.left hp).database, (hs.left hp).spared⟩
  applyBatch _ _ _ _ _ hs hbatch := ⟨hp.applyBatch hs.database hbatch, hs.spared⟩

theorem orderly_left (h : s.world.database.Orderly) : s.left.world.database.Orderly :=
  World.orderly_run (World.orderly_run h s.gap.before) s.gap.after

theorem left_database (h : ∀ g ∈ s.script, ∀ e ∈ g.before ++ g.after, e.IsWrite) :
    s.left.world.database = s.world.database := by
  have hgap : ∀ e ∈ s.gap.before ++ s.gap.after, e.IsWrite := by
    unfold gap
    cases hscript : s.script with
    | nil => simp
    | cons g rest => exact h g (by rw [hscript]; exact List.mem_cons_self)
  have hbefore := World.run_write_database (w := s.world) fun e he => hgap e (List.mem_append_left _ he)
  have hafter := World.run_write_database (w := s.asked) fun e he => hgap e (List.mem_append_right _ he)
  exact hafter.trans hbefore

end Session

namespace Visit

open DocIndex.Action

variable {w : World} {name : String}

theorem outcome_keeps {p : Database → Prop} {mayGo : String → Prop} (hp : Database.Kept p mayGo) {v : Visit}
    (hv : v.DeletesOnly mayGo) (h : p w.database) : p (v.outcome w).2.world.database := by
  obtain ⟨call, settings, textSearch, patience, script⟩ := v
  obtain ⟨hcall, hscript⟩ := hv
  have hpreserves := Session.preserves hp patience
  suffices hkeeps : (call.perform { host := Session.host patience, settings, textSearch }).Keeps
      fun s : Session => s.Keeps p mayGo by
    have houtcome := After.outcome (p := fun _ (t : Session) => t.Keeps p mayGo) (hkeeps ⟨w, script, []⟩ ⟨h, hscript⟩)
    exact houtcome.database
  cases call with
  | reopen settings file key? => exact keeps_transact fun _ _ hs hok => ⟨hp.openDatabase hs.database hok, hs.spared⟩
  | ensure spec hascending =>
    refine Keeps.bind (fun s hs => (Manager.after_ensure _ spec s).mono ?_ ?_) fun _ => keeps_pure _
    · rintro _ _ ⟨hvalidate, t, start, db, ht, hok, rfl⟩
      have hmet : t.Keeps p mayGo := by
        rcases ht with rfl | rfl
        · exact hs
        · exact hs.left hp
      exact ⟨hp.ensure hmet.database (.withDefaultTokenizer hascending _ hvalidate) hok, hmet.spared⟩
    · rintro _ t (rfl | rfl)
      · exact hs
      · exact hs.left hp
  | deleteIndex name =>
    unfold Call.perform Manager.deleteIndex
    exact keeps_transact fun _ _ hs hok => ⟨hp.deleteIndex (hcall name rfl) hs.database hok, hs.spared⟩
  | updateAll => exact Update.keeps_updateAll hpreserves
  | updateIndex index => exact (Manager.keeps_updateIndex hpreserves index).bind fun _ => keeps_pure _
  | find q => exact (Manager.keeps_find hpreserves q).bind fun _ => keeps_pure _

/-- A declaration or a deletion that fails leaves the world as others left it, and one that succeeds leaves all other
indexes so. -/
theorem outcome_atomic (v : Visit) (hname : v.call.Declares name) (h : w.database.Orderly) :
    ∃ met : World, (met = w ∨ met = (v.session w).left.world) ∧
      (∀ e, (v.outcome w).1 = .error e → (v.outcome w).2.world = met) ∧
      ((v.outcome w).1 = .ok () → Database.SameBut name met.database (v.outcome w).2.world.database) := by
  refine After.outcome (p := fun outcome (t : Session) => ∃ met : World, (met = w ∨ met = (v.session w).left.world) ∧
    (∀ e, outcome = .error e → t.world = met) ∧
    (outcome = .ok () → Database.SameBut name met.database t.world.database)) ?_
  obtain ⟨call, settings, textSearch, patience, script⟩ := v
  cases call with
  | ensure spec hascending =>
    obtain rfl : spec.name = name := hname
    have hmet : ∀ t : Session, t = { world := w, script } ∨ t = Session.left { world := w, script } →
        (t.world = w ∨ t.world = (Session.left { world := w, script }).world) ∧ t.world.database.Orderly := by
      rintro t (rfl | rfl)
      · exact ⟨Or.inl rfl, h⟩
      · exact ⟨Or.inr rfl, Session.orderly_left h⟩
    refine after_bind ((Manager.after_ensure _ spec _).mono ?_ ?_)
    · rintro _ _ ⟨hvalidate, t, start, db, ht, hok, rfl⟩
      obtain ⟨hwhen, horderly⟩ := hmet t ht
      have haccepted := IndexSpec.Accepted.withDefaultTokenizer hascending _ hvalidate
      have hsame := horderly.ensure_sameBut haccepted hok
      rw [IndexSpec.withDefaultTokenizer_name] at hsame
      exact after_pure ⟨t.world, hwhen, nofun, fun _ => hsame⟩
    · rintro e t ht
      exact ⟨t.world, (hmet t ht).1, fun _ _ => rfl, nofun⟩
  | deleteIndex index =>
    obtain rfl : index = name := hname
    unfold Call.perform Manager.deleteIndex
    refine after_transact (fun db hok => ?_) fun e _ => ?_
    · exact ⟨w, Or.inl rfl, nofun, fun _ => h.deleteIndex_sameBut hok⟩
    · exact ⟨w, Or.inl rfl, fun _ _ => rfl, nofun⟩
  | _ => exact hname.elim

end Visit

theorem World.orderly_visited {w : World} (h : w.database.Orderly) (visits : List Visit) :
    (w.visited visits).database.Orderly := by
  induction visits generalizing w with
  | nil => exact h
  | cons v rest ih => exact ih (Visit.outcome_keeps Database.Orderly.kept v.deletesOnly_true h)

/-- After any visits to an empty database its tables are those of its definitions, and the definitions are valid
together. A visit that declares or deletes an index leaves the world as others left it if it fails, and leaves all other
indexes so if it succeeds. -/
theorem World.visited_accords (visits : List Visit) :
    (∃ ds, (visited {} visits).database.Accords ds) ∧
    ∀ (v : Visit) (name : String), v.call.Declares name →
      ∃ met : World, (met = visited {} visits ∨ met = (v.session (visited {} visits)).left.world) ∧
        (v.IsAlone → met.database = (visited {} visits).database) ∧
        (∀ e, (v.outcome (visited {} visits)).1 = .error e → (v.outcome (visited {} visits)).2.world = met) ∧
        ((v.outcome (visited {} visits)).1 = .ok () →
          met.database.SameBut name (v.outcome (visited {} visits)).2.world.database) := by
  have hvisited := orderly_visited (w := {}) .empty visits
  refine ⟨hvisited.accords, fun v name hname => ?_⟩
  obtain ⟨met, hmet, hfails, hsucceeds⟩ := v.outcome_atomic hname hvisited
  refine ⟨met, hmet, fun halone => ?_, hfails, hsucceeds⟩
  rcases hmet with rfl | rfl
  · rfl
  · exact Session.left_database halone

namespace Visit

/-- A database with a text index, which a manager brings up to date. -/
def declared : List Visit :=
  [{ call := .reopen {} .absent none },
    { call := .ensure { name := "notes", kind := .text, fields := [{ path := "note" }] } .nil
      script := [{ before := [.create "ann" [("note", .string "tall")]] }] },
    { call := .updateAll }]

/-- A second text index. -/
def second : Visit := { call := .ensure { name := "memos", kind := .text, fields := [{ path := "memo" }] } .nil }

theorem visited_accords_declared :
    (∃ ds, (World.visited {} declared).database.Accords ds) ∧
    (World.visited {} declared).database.definitions.toOption.map (·.map (·.name)) = some ["notes"] ∧
    (second.outcome (World.visited {} declared)).1.toOption = none ∧
    (second.outcome (World.visited {} declared)).2.world.database = (World.visited {} declared).database := by
  obtain ⟨haccords, hatomic⟩ := World.visited_accords declared
  obtain ⟨met, _, halone, hfails, _⟩ := hatomic second "memos" rfl
  have hrefused : (second.outcome (World.visited {} declared)).1.toOption = none := by decide +kernel
  refine ⟨haccords, by decide +kernel, hrefused, ?_⟩
  cases hresult : (second.outcome (World.visited {} declared)).1 with
  | ok u =>
    rw [hresult] at hrefused
    cases hrefused
  | error e =>
    rw [hfails e hresult, halone]
    intro g hg
    exact absurd hg List.not_mem_nil

end Visit

end DocIndex
