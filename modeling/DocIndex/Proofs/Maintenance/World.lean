import DocIndex.Maintenance.Session
import DocIndex.Proofs.Document.Feed
import DocIndex.Proofs.Index.Settings

/-! # What an event does

The events that matter to proofs, told by cases: a step of an updater, a request of an index, a request of the store.
-/

namespace DocIndex

namespace Updater

theorem step_cases (u : Updater) (store : Store) (db : Database) :
    ((u.step store db).2 = db ∧ u.committed db = []) ∨
    ∃ target since page next, u.phase = .fetched target since page ∧
      db.applyBatch u.index since page.changes page.checkpoint = .ok (.applied next) ∧
      (u.step store db).2 = next ∧ u.committed db = page.changes := by
  obtain ⟨index, batchSize, patience, phase⟩ := u
  cases phase with
  | reading target =>
    left
    refine ⟨?_, rfl⟩
    unfold step
    dsimp only
    split <;> rfl
  | ready target since =>
    left
    refine ⟨?_, rfl⟩
    unfold step
    dsimp only
    split <;> rfl
  | fetched target since page =>
    cases hbatch : db.applyBatch index since page.changes page.checkpoint with
    | error e => exact Or.inl (by simp only [step, committed, hbatch, and_self])
    | ok outcome =>
      cases outcome with
      | applied next =>
        refine Or.inr ⟨target, since, page, next, rfl, hbatch, ?_, ?_⟩
        · simp only [step, hbatch]
        · simp only [committed, hbatch]
      | vanished => exact Or.inl (by simp only [step, committed, hbatch, and_self])
      | moved checkpoint =>
        left
        simp only [step, committed, hbatch]
        cases patience <;> exact ⟨rfl, trivial⟩
  | finished checkpoint? => exact Or.inl ⟨rfl, rfl⟩
  | failed => exact Or.inl ⟨rfl, rfl⟩

end Updater

namespace World

theorem run_append (w : World) (events more : List Event) : w.run (events ++ more) = (w.run events).run more :=
  List.foldl_append

theorem startsAt_of_mem {w : World} {name : String} {names : List String} (h : name ∈ names) (start : Int) :
    w.startsAt start names name = start := if_pos h

theorem startsAt_of_not_mem {w : World} {name : String} {names : List String} (h : name ∉ names) (start : Int) :
    w.startsAt start names name = w.starts name := if_neg h

theorem ensure_cases (w : World) (spec : IndexSpec) (start : Int) :
    w.ensure spec start = w ∨
    ∃ database, spec.validate = .ok () ∧ spec.settings.Ascending ∧ start ≤ w.store.sequence ∧
      w.database.ensure spec start = .ok database ∧
      w.ensure spec start =
        { w with
          database
          starts := if w.isDefined spec.name then w.starts else w.startsAt start [spec.name] } := by
  unfold ensure
  split
  · rename_i hguard
    obtain ⟨hvalid, hsettings, _, hle⟩ := hguard
    have hvalidate : spec.validate = .ok () := by
      cases hv : spec.validate with
      | error e => simp [hv, Except.toBool] at hvalid
      | ok u => rfl
    cases hok : w.database.ensure spec start with
    | error e => exact Or.inl rfl
    | ok database => exact Or.inr ⟨database, hvalidate, hsettings, hle, rfl, rfl⟩
  · exact Or.inl rfl

def recorded (w : World) (docId : String) (g : Nat) (deleted : Bool) (body : Object) : World :=
  { w with
    store := (w.store.record docId g deleted body).2
    written := w.written ++ [(w.store.record docId g deleted body).1] }

theorem step_write_cases (w : World) {e : Event} (he : e.IsWrite) :
    (∃ docId, e = .purge docId) ∨ w.step e = w ∨
    ∃ docId g deleted body, w.step e = w.recorded docId g deleted body := by
  have hwrote : ∀ result : Except StoreError (Revision × Store),
      (∀ r t, result = .ok (r, t) → ∃ docId g deleted body, (r, t) = w.store.record docId g deleted body) →
      w.wrote result = w ∨ ∃ docId g deleted body, w.wrote result = w.recorded docId g deleted body := by
    intro result hr
    cases result with
    | error e => exact Or.inl rfl
    | ok p =>
      obtain ⟨docId, g, deleted, body, heq⟩ := hr p.1 p.2 rfl
      refine Or.inr ⟨docId, g, deleted, body, ?_⟩
      rw [wrote, recorded, ← heq]
  cases e with
  | create docId body =>
    refine Or.inr (hwrote _ fun r t hr => ?_)
    obtain ⟨g, hg, _⟩ := Store.eq_record_of_create hr
    exact ⟨docId, g, false, body, hg⟩
  | update docId revId body =>
    refine Or.inr (hwrote _ fun r t hr => ?_)
    obtain ⟨g, hg, _⟩ := Store.eq_record_of_update hr
    exact ⟨docId, g, false, body, hg⟩
  | delete docId revId =>
    refine Or.inr (hwrote _ fun r t hr => ?_)
    obtain ⟨g, hg, _⟩ := Store.eq_record_of_delete hr
    exact ⟨docId, g, true, [], hg⟩
  | purge docId => exact Or.inl ⟨docId, rfl⟩
  | _ => exact he.elim

end World

end DocIndex
