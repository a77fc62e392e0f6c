import DocIndex.Maintenance.Visits
import DocIndex.Proofs.Document.Paging
import DocIndex.Proofs.Document.Requests
import DocIndex.Proofs.Maintenance.Calls
import DocIndex.Proofs.Maintenance.Consistency
import Mathlib.Logic.Function.Iterate

/-! # Updates in batches

An update applies what is pending in batches, each in a transaction of its own, and any request of it may fail. While
nobody writes, all this makes no difference to where it leads: a batch takes some of what is pending and leaves the rest
to the next ones, so whatever was applied before, what comes out in the end is what all pending changes make at once.
-/

namespace DocIndex

namespace Content

variable {x : Content}

def movedTo (x : Content) (checkpoint : Int) : Content :=
  { x with definition := { x.definition with lastSequence := checkpoint } }

theorem absorb_movedTo (x : Content) (checkpoint : Int) (r : Revision) :
    (x.movedTo checkpoint).absorb r = (x.absorb r).movedTo checkpoint := by
  unfold absorb
  split <;> rfl

theorem absorbAll_movedTo (x : Content) (checkpoint : Int) (changes : List Revision) :
    (x.movedTo checkpoint).absorbAll changes = (x.absorbAll changes).movedTo checkpoint := by
  induction changes generalizing x with
  | nil => rfl
  | cons r rest ih =>
    change ((x.movedTo checkpoint).absorb r).absorbAll rest = ((x.absorb r).absorbAll rest).movedTo checkpoint
    rw [absorb_movedTo, ih]

theorem apply_apply (x : Content) (p q : Page) :
    (x.apply p).apply q = x.apply { changes := p.changes ++ q.changes, checkpoint := q.checkpoint } := by
  have happly : ∀ (y : Content) (p : Page), y.apply p = (y.absorbAll p.changes).movedTo p.checkpoint := fun _ _ => rfl
  rw [happly, happly, happly, absorbAll_movedTo]
  unfold absorbAll
  rw [List.foldl_append]
  rfl

/-- The content with all that was last written after its checkpoint, absorbed at once. -/
def caughtUp (s : Store) (x : Content) : Content :=
  x.apply
    { changes := s.latest.filter (x.definition.lastSequence < ·.sequence)
      checkpoint := max x.definition.lastSequence s.sequence }

end Content

namespace Store.WellFormed

variable {s : Store} {since : Int} {limit : Nat}

theorem filter_latest_of_le (hs : s.WellFormed) (hle : s.sequence ≤ since) :
    s.latest.filter (since < ·.sequence) = [] := by
  rw [List.filter_eq_nil_iff]
  intro r hr
  have := (hs.winning_bounded (hs.mem_latest.mp hr)).2
  simp only [decide_eq_true_eq]
  omega

theorem pending_eq_cut_append (hs : s.WellFormed) (hpos : 0 < limit) (hlt : since < s.sequence) :
    s.latest.filter (since < ·.sequence) =
      (Page.cut s.sequence limit (s.changesSince since limit)).changes ++
        s.latest.filter ((Page.cut s.sequence limit (s.changesSince since limit)).checkpoint < ·.sequence) := by
  have hbounded : ∀ r ∈ s.changesSince since limit, r.sequence ≤ s.sequence :=
    fun r hr => (hs.winning_bounded (hs.winning_of_mem_changesSince hr)).2
  have hgoes := GoesOnAfter.of_lt hlt
  rcases Page.cut_checkpoint s.sequence hpos (s.changesSince since limit) with
    ⟨hcheckpoint, hshort | ⟨q, hq, hgt⟩⟩ | ⟨hall, last, hl, hcheckpoint⟩
  · have hkept : (Page.cut s.sequence limit (s.changesSince since limit)).changes = s.changesSince since limit := by
      rw [Page.cut, List.filter_eq_self]
      exact fun r hr => decide_eq_true (hbounded r hr)
    rw [hcheckpoint, hkept, hs.filter_latest_of_le (Int.le_refl _), List.append_nil,
      hs.changesSince_of_short hgoes hshort]
  · exact absurd (hbounded q hq) (by omega)
  · rw [hall, hcheckpoint]
    exact hs.filter_latest_split hgoes hl

end Store.WellFormed

namespace Content

variable {x : Content} {s : Store}

theorem caughtUp_of_le (hs : s.WellFormed) (hle : s.sequence ≤ x.definition.lastSequence) : x.caughtUp s = x := by
  rw [caughtUp, hs.filter_latest_of_le hle, Int.max_eq_left hle]
  rfl

/-- A batch leaves the content that comes out in the end as it is. -/
theorem caughtUp_apply_cut (hs : s.WellFormed) {limit : Nat} (hpos : 0 < limit)
    (hlt : x.definition.lastSequence < s.sequence) :
    (x.apply (Page.cut s.sequence limit (s.changesSince x.definition.lastSequence limit))).caughtUp s =
      x.caughtUp s := by
  have hcovers := Page.cut_covers hs hpos hlt (Int.le_refl _)
  have hpending := hs.pending_eq_cut_append hpos hlt
  generalize Page.cut s.sequence limit (s.changesSince x.definition.lastSequence limit) = page at hcovers hpending ⊢
  have hcheckpoint : (x.apply page).definition.lastSequence = page.checkpoint := rfl
  rw [caughtUp, caughtUp, apply_apply, hcheckpoint, ← hpending, Int.max_eq_right hcovers.checkpoint_le,
    Int.max_eq_right (Int.le_of_lt hlt)]

theorem caughtUp_name (s : Store) (x : Content) : (x.caughtUp s).name = x.name := apply_name x _

end Content

/-! ## Batches of a database -/

namespace Database

def batch (s : Store) (batchSize : Nat) (index : String) (db : Database) : Database :=
  match db.catalog.lastSequence? index with
  | .ok (some since) =>
    if s.sequence ≤ since then db
    else
      let page := Page.cut s.sequence (max batchSize 1) (s.changesSince since (max batchSize 1))
      match db.applyBatch index since page.changes page.checkpoint with
      | .ok (.applied next) => next
      | _ => db
  | _ => db

/-- The database has an index that leads to a content when all that is pending is applied. -/
structure LeadsTo (s : Store) (goal : Content) (db : Database) (xs : List Content) (x : Content) : Prop where
  holds : db.Holds xs
  mem : x ∈ xs
  caughtUp_eq : x.caughtUp s = goal

variable {s : Store} {db : Database} {goal x : Content} {xs : List Content}

theorem Orderly.exists_content (h : db.Orderly) {index : String} {d : Definition}
    (hindex : db.definition? index = .ok (some d)) :
    ∃ xs x, db.Holds xs ∧ x ∈ xs ∧ x.name = index ∧ x.definition = d := by
  obtain ⟨xs, hholds, _⟩ := h
  obtain ⟨x, hx, hname, hdefinition⟩ := hholds.exists_content hindex
  exact ⟨xs, x, hholds, hx, hname, hdefinition⟩

namespace LeadsTo

theorem name_eq (h : db.LeadsTo s goal xs x) : x.name = goal.name := by
  rw [← h.caughtUp_eq, Content.caughtUp_name]

theorem lastSequence? (h : db.LeadsTo s goal xs x) :
    db.catalog.lastSequence? goal.name = .ok (some x.definition.lastSequence) := by
  rw [← h.name_eq]
  exact h.holds.lastSequence? h.mem

theorem batch_of_le (h : db.LeadsTo s goal xs x) (hle : s.sequence ≤ x.definition.lastSequence) (batchSize : Nat) :
    db.batch s batchSize goal.name = db := by
  unfold batch
  simp only [h.lastSequence?, if_pos hle]

theorem applyBatch (h : db.LeadsTo s goal xs x) (hs : s.WellFormed) (hlt : x.definition.lastSequence < s.sequence)
    (batchSize : Nat) {page : Page}
    (hpage : page = Page.cut s.sequence (max batchSize 1)
      (s.changesSince x.definition.lastSequence (max batchSize 1))) :
    db.applyBatch goal.name x.definition.lastSequence page.changes page.checkpoint =
        .ok (.applied (db.batch s batchSize goal.name)) ∧
      (db.batch s batchSize goal.name).LeadsTo s goal (Content.put (x.apply page) xs) (x.apply page) := by
  obtain ⟨next, hnext, hholds, _⟩ := h.holds.applyBatch_applied h.mem page
  rw [h.name_eq] at hnext
  have hbatch : db.batch s batchSize goal.name = next := by
    unfold batch
    simp only [h.lastSequence?, if_neg (Int.not_le.mpr hlt), ← hpage, hnext]
  rw [hbatch]
  refine ⟨hnext, hholds, Content.mem_put_self h.mem (Content.apply_name x page).symm, ?_⟩
  rw [← h.caughtUp_eq, hpage]
  exact Content.caughtUp_apply_cut hs (by omega) hlt

theorem batch (h : db.LeadsTo s goal xs x) (hs : s.WellFormed) (batchSize : Nat) :
    ∃ ys y, (db.batch s batchSize goal.name).LeadsTo s goal ys y := by
  rcases Int.lt_or_le x.definition.lastSequence s.sequence with hlt | hle
  · exact ⟨_, _, (h.applyBatch hs hlt batchSize rfl).2⟩
  · rw [h.batch_of_le hle batchSize]
    exact ⟨xs, x, h⟩

theorem iterate (h : db.LeadsTo s goal xs x) (hs : s.WellFormed) (batchSize n : Nat) :
    ∃ ys y, LeadsTo s goal ((Database.batch s batchSize goal.name)^[n] db) ys y := by
  induction n generalizing db xs x with
  | zero => exact ⟨xs, x, h⟩
  | succ n ih =>
    obtain ⟨ys, y, hnext⟩ := h.batch hs batchSize
    exact ih hnext

theorem eq_of_le (h : db.LeadsTo s goal xs x) (hs : s.WellFormed) (hle : s.sequence ≤ x.definition.lastSequence) :
    x = goal := by
  rw [← h.caughtUp_eq, Content.caughtUp_of_le hs hle]

end LeadsTo

end Database

/-! ## Attempts -/

namespace Attempt

def batches (a : Attempt) (index : String) (w : World) (n : Nat) : World :=
  { w with database := (Database.batch w.store a.batchSize index)^[n] w.database }

/-- The first requests of an attempt do not fail. -/
def Answers (a : Attempt) (n : Nat) : Prop := ∀ f? ∈ a.failures.take n, f? = none

/-- How an attempt fails: a request is the first that fails, and every request before it, other than the one for the
sequence, was followed by a batch. -/
structure Fails (a : Attempt) (index : String) (w : World) (n : Nat) (e : QueryError) (t : World) : Prop where
  answers : a.Answers n
  refused : ∃ f, a.failures[n]? = some (some f) ∧ e = .store f
  world_eq : t = a.batches index w (n - 1)

structure Reached (a : Attempt) (w : World) (goal : Content) (n : Nat) (since : Int) (s : Session) : Prop where
  world_eq : s.world = a.batches goal.name w n
  script_eq : s.script = (a.failures.drop (n + 1)).map Gap.failing
  answers : a.Answers (n + 1)
  leads : ∃ xs x, s.world.database.LeadsTo w.store goal xs x ∧ x.definition.lastSequence = since

/-- A session in this world whose requests fail as those of the attempt. -/
structure Meets (a : Attempt) (w : World) (s : Session) : Prop where
  world_eq : s.world = w
  script_eq : s.script = a.failures.map Gap.failing

/-- Before each of the first batches the index was behind the store. -/
def Behind (a : Attempt) (index : String) (w : World) (n : Nat) : Prop :=
  ∀ m < n, ∃ c < w.store.sequence, (a.batches index w m).database.catalog.lastSequence? index = .ok (some c)

variable {a : Attempt} {w : World} {goal : Content} {s : Session} {n : Nat} {since : Int}

theorem Answers.succ (h : a.Answers n) (hnext : a.failures[n]?.join = none) : a.Answers (n + 1) := by
  intro f? hf
  rw [List.take_add_one, List.mem_append] at hf
  rcases hf with hf | hf
  · exact h f? hf
  · rw [Option.mem_toList.mp hf] at hnext
    exact hnext

theorem quiet_request {failures : List (Option StoreError)} (h : s.script = failures.map Gap.failing) :
    s.gap.failure? = failures.head?.join ∧ s.asked = s.world ∧ s.left.world = s.world ∧
      s.left.script = failures.tail.map Gap.failing := by
  have hscript : s.left.script = failures.tail.map Gap.failing := by
    rw [Session.left, h, List.map_tail]
  unfold Session.left Session.asked Session.gap at *
  rw [h]
  cases failures with
  | nil => exact ⟨rfl, rfl, rfl, rfl⟩
  | cons f? rest => exact ⟨rfl, rfl, rfl, rfl⟩

theorem Reached.advance (h : a.Reached w goal n since s) (hs : w.store.WellFormed) (hlt : since < w.store.sequence) :
    (Update.advance (Session.host a.patience) goal.name (max a.batchSize 1) w.store.sequence since).After s
      (fun p t => ∃ next, p = .reached next ∧ since < next ∧ a.Reached w goal (n + 1) next t)
      fun e t => a.Fails goal.name w (n + 1) e t.world := by
  obtain ⟨hfailure, hasked, hleft, hscript⟩ := quiet_request h.script_eq
  obtain ⟨xs, x, hleads, rfl⟩ := h.leads
  have hstore : s.world.store = w.store := by rw [h.world_eq]; rfl
  rw [List.head?_drop] at hfailure
  rw [List.tail_drop] at hscript
  unfold Update.advance
  refine Action.after_bind (Action.after_ask ?_)
  cases hgap : s.gap.failure? with
  | some f =>
    simp only [Session.host, Session.answer, hgap]
    refine ⟨h.answers, ⟨f, ?_, rfl⟩, hleft.trans h.world_eq⟩
    exact Option.join_eq_some_iff.mp (hfailure.symm.trans hgap)
  | none =>
    simp only [Session.host, Session.answer, hgap, hasked, hstore]
    obtain ⟨happlied, hnext⟩ := hleads.applyBatch hs hlt a.batchSize rfl
    have hcovers := Page.cut_covers hs (Nat.le_max_right a.batchSize 1) hlt (Int.le_refl _)
    unfold Action.After Update.applyPage
    simp only [hleft, happlied]
    refine ⟨_, rfl, hcovers.since_lt, ?_, hscript, h.answers.succ (hfailure.symm.trans hgap), _, _, hnext, rfl⟩
    simp only [h.world_eq, batches, Function.iterate_succ_apply']

theorem Behind.succ (h : a.Behind goal.name w n) (hreached : a.Reached w goal n since s)
    (hlt : since < w.store.sequence) : a.Behind goal.name w (n + 1) := by
  intro m hm
  rcases Nat.lt_succ_iff_lt_or_eq.mp hm with hm | rfl
  · exact h m hm
  · obtain ⟨xs, x, hleads, rfl⟩ := hreached.leads
    refine ⟨_, hlt, ?_⟩
    rw [← hreached.world_eq]
    exact hleads.lastSequence?

/-- An update comes to the sequence of the store, or fails at a request. It applies no batch that is not needed. -/
theorem after_update {xs : List Content} {x : Content} (hmeets : a.Meets w s) (hs : w.store.WellFormed)
    (h : w.database.LeadsTo w.store goal xs x) :
    (Update.updateIndex (Session.host a.patience) a.batchSize goal.name).After s
      (fun c? t => ∃ checkpoint n, c? = some checkpoint ∧ w.store.sequence ≤ checkpoint ∧
        a.Reached w goal n checkpoint t ∧ a.Behind goal.name w n)
      fun e t => ∃ n, a.Fails goal.name w n e t.world ∧ a.Behind goal.name w n := by
  obtain ⟨hfailure, hasked, hleft, hscript⟩ := quiet_request hmeets.script_eq
  rw [hmeets.world_eq] at hasked hleft
  have hstep : ∀ since s, (∃ n, a.Reached w goal n since s ∧ a.Behind goal.name w n) → since < w.store.sequence →
      (Update.advance (Session.host a.patience) goal.name (max a.batchSize 1) w.store.sequence since).After s
        (fun p t => ∃ next, p = .reached next ∧ since < next ∧
          ∃ n, a.Reached w goal n next t ∧ a.Behind goal.name w n)
        fun e t => ∃ n, a.Fails goal.name w n e t.world ∧ a.Behind goal.name w n := by
    rintro since s ⟨n, hreached, hbehind⟩ hlt
    have hlater := hbehind.succ hreached hlt
    refine (hreached.advance hs hlt).mono ?_ fun e t he => ⟨n + 1, he, hlater⟩
    rintro _ t ⟨next, rfl, hgt, hnext⟩
    exact ⟨next, rfl, hgt, n + 1, hnext, hlater⟩
  have hnone : a.Answers 0 := by
    intro f? hf
    simp at hf
  have hfirst : a.Behind goal.name w 0 := fun m hm => absurd hm (Nat.not_lt_zero m)
  rw [List.head?_eq_getElem?] at hfailure
  unfold Update.updateIndex
  refine Action.after_bind (Action.after_ask ?_)
  cases hgap : s.gap.failure? with
  | some f =>
    simp only [Session.host, Session.answer, hgap]
    exact ⟨0, ⟨hnone, ⟨f, Option.join_eq_some_iff.mp (hfailure.symm.trans hgap), rfl⟩, hleft⟩, hfirst⟩
  | none =>
    simp only [Session.host, Session.answer, hgap, hasked]
    refine Action.after_bind (Action.after_look (v := some x.definition.lastSequence) ?_ ?_)
    · simp only [hleft]
      rw [h.lastSequence?]
      rfl
    · have hbegin : a.Reached w goal 0 x.definition.lastSequence s.left := by
        refine ⟨hleft, ?_, hnone.succ (hfailure.symm.trans hgap), xs, x, ?_, rfl⟩
        · rw [hscript, List.drop_one]
        · rw [hleft]
          exact h
      refine (Update.after_settle hstep a.patience ⟨0, hbegin, hfirst⟩).mono ?_ fun _ _ he => he
      rintro _ t ⟨checkpoint, rfl, hle, n, hreached, hbehind⟩
      exact ⟨checkpoint, n, rfl, hle, hreached, hbehind⟩

theorem after_outcome {xs : List Content} {x : Content} (a : Attempt) (hs : w.store.WellFormed)
    (h : w.database.LeadsTo w.store goal xs x) :
    (Update.updateIndex (Session.host a.patience) a.batchSize goal.name).After (a.session w)
      (fun c? t => ∃ checkpoint n, c? = some checkpoint ∧ w.store.sequence ≤ checkpoint ∧
        a.Reached w goal n checkpoint t)
      fun e t => ∃ n, a.Fails goal.name w n e t.world := by
  refine (after_update (a := a) (s := a.session w) ⟨rfl, rfl⟩ hs h).mono ?_ ?_
  · rintro _ t ⟨checkpoint, n, hc, hle, hreached, _⟩
    exact ⟨checkpoint, n, hc, hle, hreached⟩
  · rintro e t ⟨n, hfails, _⟩
    exact ⟨n, hfails⟩

theorem exists_batches {xs : List Content} {x : Content} (a : Attempt) (hs : w.store.WellFormed)
    (h : w.database.LeadsTo w.store goal xs x) : ∃ n, (a.outcome goal.name w).2.world = a.batches goal.name w n := by
  refine Action.After.outcome (p := fun _ (t : Session) => ∃ n, t.world = a.batches goal.name w n)
    ((a.after_outcome hs h).mono ?_ ?_)
  · rintro _ t ⟨_, n, _, _, hreached⟩
    exact ⟨n, hreached.world_eq⟩
  · rintro e t ⟨n, hfails⟩
    exact ⟨n - 1, hfails.world_eq⟩

end Attempt

namespace Attempt

variable {a : Attempt} {w : World} {goal : Content} {index : String} {xs : List Content} {x : Content}

theorem leadsTo_attempted (hs : w.store.WellFormed) (h : w.database.LeadsTo w.store goal xs x)
    (attempts : List Attempt) :
    (w.attempted goal.name attempts).store = w.store ∧
      ∃ ys y, (w.attempted goal.name attempts).database.LeadsTo w.store goal ys y := by
  induction attempts generalizing w xs x with
  | nil => exact ⟨rfl, xs, x, h⟩
  | cons a rest ih =>
    obtain ⟨n, hworld⟩ := a.exists_batches hs h
    obtain ⟨ys, y, hnext⟩ := h.iterate hs a.batchSize n
    have hrest : ((a.batches goal.name w n).attempted goal.name rest).store = w.store ∧
        ∃ ys y, ((a.batches goal.name w n).attempted goal.name rest).database.LeadsTo w.store goal ys y := ih hs hnext
    rw [← hworld] at hrest
    exact hrest

theorem outcome_of_le (a : Attempt) (hs : w.store.WellFormed) (h : w.database.LeadsTo w.store goal xs x)
    (hle : w.store.sequence ≤ x.definition.lastSequence) : (a.outcome goal.name w).2.world = w := by
  obtain ⟨n, hworld⟩ := a.exists_batches hs h
  rw [hworld, batches, Function.iterate_fixed (h.batch_of_le hle a.batchSize)]

theorem leadsTo_of_ok (hs : w.store.WellFormed) (h : w.database.LeadsTo w.store goal xs x) {c? : Option Int}
    (hok : (a.outcome goal.name w).1 = .ok c?) :
    c? = some goal.definition.lastSequence ∧ w.store.sequence ≤ goal.definition.lastSequence ∧
      (a.outcome goal.name w).2.world.store = w.store ∧
      ∃ ys, (a.outcome goal.name w).2.world.database.LeadsTo w.store goal ys goal := by
  obtain ⟨_, n, hc, hle, hreached⟩ := (a.after_outcome hs h).of_ok (Prod.ext hok rfl)
  obtain ⟨ys, y, hy, rfl⟩ := hreached.leads
  have hworld : (a.outcome goal.name w).2.world = a.batches goal.name w n := hreached.world_eq
  obtain rfl := hy.eq_of_le hs hle
  refine ⟨hc, hle, ?_, ys, hy⟩
  rw [hworld]
  rfl

theorem fails_of_error (hs : w.store.WellFormed) (h : w.database.LeadsTo w.store goal xs x) {e : QueryError}
    (he : (a.outcome goal.name w).1 = .error e) : ∃ n, a.Fails goal.name w n e (a.outcome goal.name w).2.world := by
  have hall := Action.After.outcome
    (p := fun r (t : Session) => ∀ e, r = .error e → ∃ n, a.Fails goal.name w n e t.world)
    ((a.after_outcome hs h).mono (fun _ _ _ => nofun) ?_)
  · exact hall e he
  · rintro e t ⟨n, hfails⟩ _ heq
    rw [← Except.error.inj heq]
    exact ⟨n, hfails⟩

theorem exists_ok (hs : w.store.WellFormed) (h : w.database.LeadsTo w.store goal xs x)
    (hanswered : ∀ f? ∈ a.failures, f? = none) : ∃ c?, (a.outcome goal.name w).1 = .ok c? := by
  cases hresult : (a.outcome goal.name w).1 with
  | ok c? => exact ⟨c?, rfl⟩
  | error e =>
    obtain ⟨n, hfails⟩ := fails_of_error hs h hresult
    obtain ⟨f, hf, _⟩ := hfails.refused
    cases hanswered _ (List.mem_of_getElem? hf)

/-- Batch sizes and interruptions make no difference. Whatever attempts to update an index there were before, each that
succeeds leads to the same definition, with the same types and checkpoint, and to the same rows, and any further one
changes nothing. One that fails does so at a request and leaves the index after the batches up to there. One whose
requests do not fail succeeds. -/
theorem attempted_agree (hs : w.store.WellFormed) (hdb : w.database.Orderly) {d₀ : Definition}
    (hindex : w.database.definition? index = .ok (some d₀)) :
    ∃ d rows, d.lastSequence = max d₀.lastSequence w.store.sequence ∧
      ∀ (attempts : List Attempt) (a : Attempt),
        let v := w.attempted index attempts
        let t := (a.outcome index v).2.world
        (∀ c?, (a.outcome index v).1 = .ok c? → c? = some d.lastSequence ∧
          t.database.definition? index = .ok (some d) ∧ t.database.dump index = .ok (some rows) ∧
          ∀ again : Attempt, (again.outcome index t).2.world = t) ∧
        (∀ e, (a.outcome index v).1 = .error e → ∃ n, a.Fails index v n e t) ∧
        ((∀ f? ∈ a.failures, f? = none) → ∃ c?, (a.outcome index v).1 = .ok c?) := by
  obtain ⟨xs, x, hholds, hx, rfl, rfl⟩ := hdb.exists_content hindex
  have hname := Content.caughtUp_name w.store x
  refine ⟨(x.caughtUp w.store).definition, (x.caughtUp w.store).rows.map Table.cells, rfl, fun attempts a => ?_⟩
  have hleads : w.database.LeadsTo w.store (x.caughtUp w.store) xs x := ⟨hholds, hx, rfl⟩
  rw [← hname]
  generalize x.caughtUp w.store = goal at hleads ⊢
  obtain ⟨hstore, ys, y, hbefore⟩ := leadsTo_attempted hs hleads attempts
  dsimp only
  generalize w.attempted goal.name attempts = v at hstore hbefore ⊢
  rw [← hstore] at hs hbefore
  refine ⟨fun c? hok => ?_, fun e he => fails_of_error hs hbefore he, exists_ok hs hbefore⟩
  obtain ⟨hc, hle, hsame, zs, hafter⟩ := leadsTo_of_ok hs hbefore hok
  refine ⟨hc, hafter.holds.definition? hafter.mem, hafter.holds.dump hafter.mem, fun again => ?_⟩
  rw [← hsame] at hs hle hafter
  exact again.outcome_of_le hs hafter hle

/-- Three documents, the last of which is deleted, and an index that has seen none of them. -/
def unseen : World :=
  { store := Store.after {}
      [.create "ann" [("age", .number (.int 40))], .create "bob" [("age", .string "old")], .create "cal" [],
        .delete "cal" "1-000003"]
    database := (World.run {} [.ensure { name := "ages", fields := [{ path := "age" }] } "" 0]).database }

/-- Pages of one change, the second of which cannot be fetched. -/
def interrupted : Attempt := { batchSize := 1, failures := [none, none, some (.backend "lost")] }

/-- The interrupted attempt comes to the checkpoint 1. After it an update with batches of one change shows what an
update in one go shows. -/
theorem attempted_agree_interrupted :
    unseen.store.WellFormed ∧ unseen.database.Orderly ∧
    let v := unseen.attempted "ages" [interrupted]
    v.database.catalog.lastSequence? "ages" = .ok (some 1) ∧
    (({ batchSize := 0 } : Attempt).outcome "ages" v).2.world.database.dump "ages" =
      (({ batchSize := 500 } : Attempt).outcome "ages" unseen).2.world.database.dump "ages" := by
  have hs : unseen.store.WellFormed := Store.WellFormed.empty.after _
  have hdb : unseen.database.Orderly := World.orderly_run .empty _
  have hindex : (unseen.database.definition? "ages").toOption =
      some (some { name := "ages", kind := .value, fields := [{ path := "age" }], lastSequence := 0 }) := by
    decide +kernel
  have hfirst : ((unseen.attempted "ages" [interrupted]).database.catalog.lastSequence? "ages").toOption =
      some (some 1) := by
    decide +kernel
  obtain ⟨d, rows, _, hall⟩ := attempted_agree hs hdb (ok_of_toOption hindex)
  obtain ⟨hresumed, _, hok⟩ := hall [interrupted] { batchSize := 0 }
  obtain ⟨honce, _, hok'⟩ := hall [] { batchSize := 500 }
  obtain ⟨c?, hc⟩ := hok nofun
  obtain ⟨c?', hc'⟩ := hok' nofun
  exact ⟨hs, hdb, ok_of_toOption hfirst, (hresumed c? hc).2.2.1.trans (honce c?' hc').2.2.1.symm⟩

end Attempt

end DocIndex
