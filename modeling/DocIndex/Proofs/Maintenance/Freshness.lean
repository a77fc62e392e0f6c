import DocIndex.Proofs.Maintenance.CatchUp
import DocIndex.Proofs.Maintenance.Consistency

/-! # How fresh an update is

An update leaves to the next one whatever is written after it has read its target. The feed has only the
latest change of a document, so a document that is written again before the feed is fetched is not in the
page that would have had it. Every other document that the index starts before is shown as of its latest
revision when the update began, or as of a later one.
-/

namespace DocIndex

/-- The event is a request of the store that does not purge this document. -/
def Event.Spares (id : String) (e : Event) : Prop := e.IsWrite ∧ ∀ docId, e = .purge docId → docId ≠ id

/-- The document is shown as of some revision from a sequence on. -/
def Content.Shows (x : Content) (written : List Revision) (id : String) (since : Int) : Prop :=
  ∃ q ∈ written, q.docId = id ∧ since ≤ q.sequence ∧ q.sequence ≤ x.definition.lastSequence ∧ x.Represents q

variable {s : Store} {u v w : World} {written later : List Revision} {xs : List Content} {x : Content}
variable {id : String} {since start target : Int} {q r : Revision} {p : Page} {e : Event}

namespace Content

theorem Shows.of_written (h : x.Shows written id since) (hw : written ⊆ later) : x.Shows later id since := by
  obtain ⟨q, hq, hrest⟩ := h
  exact ⟨q, hw hq, hrest⟩

theorem shows_apply (hx : x.Follows s written start) (hs : s.WellFormed)
    (hp : p.Covers s x.definition.lastSequence) (hchanges : ∀ r ∈ p.changes, r ∈ written)
    (hq : s.winning? id = some q) (hwritten : q ∈ written) (hstart : start < since) (hle : since ≤ q.sequence)
    (h : x.Shows written id since ∨ q.sequence ≤ p.checkpoint) : (x.apply p).Shows written id since := by
  have hdoc := hs.winning_docId hq
  have hkept : ∀ r, x.Represents r → r.docId ∉ p.changes.map (·.docId) → (x.apply p).Represents r :=
    fun r hr hnot => (apply_represents_iff x p r).mpr (hr.absorbAll_of_not_mem hnot)
  have hlt := hp.since_lt
  by_cases hmem : id ∈ p.changes.map (·.docId)
  · obtain ⟨r, hr, hrid⟩ := List.mem_map.mp hmem
    have hbetween := hp.between r hr
    have hshows := (apply_represents_iff x p r).mpr (represents_absorbAll hp.nodup hr x)
    refine ⟨r, hchanges r hr, hrid, ?_, hbetween.2, hshows⟩
    rcases h with ⟨q₀, _, _, hsince, hbefore, _⟩ | hend
    · omega
    · by_cases hold : q.sequence ≤ x.definition.lastSequence
      · exact absurd hmem (Follows.not_mem_changes hp hq hold)
      · have hqmem := hp.complete id q hq (by omega) hend
        have hrq : r = q := List.inj_on_of_nodup_map hp.nodup hr hqmem (by rw [hrid, hdoc])
        rw [hrq]
        exact hle
  · rcases h with ⟨q₀, hq₀, hid, hsince, hbefore, hrep⟩ | hend
    · refine ⟨q₀, hq₀, hid, hsince, Int.le_trans hbefore (Int.le_of_lt hlt), hkept q₀ hrep ?_⟩
      rwa [hid]
    · by_cases hold : q.sequence ≤ x.definition.lastSequence
      · have hrep := hx.current id q hq (by omega) hold
        refine ⟨q, hwritten, hdoc, hle, hend, hkept q hrep ?_⟩
        rwa [hdoc]
      · have hqmem := hp.complete id q hq (by omega) hend
        exact absurd (List.mem_map.mpr ⟨q, hqmem, hdoc⟩) hmem

end Content

/-! ## Writes meanwhile -/

namespace World

/-- What becomes of a world by writes that spare a document. -/
structure Grows (id : String) (w v : World) : Prop where
  database_eq : v.database = w.database
  starts_eq : v.starts = w.starts
  precedes : w.store.Precedes v.store
  written : w.written ⊆ v.written
  winning : ∀ r, w.store.winning? id = some r → ∃ q, v.store.winning? id = some q ∧ r.sequence ≤ q.sequence

theorem Grows.refl (id : String) (w : World) : Grows id w w :=
  ⟨rfl, rfl, Store.Precedes.refl _, fun _ h => h, fun r hr => ⟨r, hr, Int.le_refl _⟩⟩

theorem Grows.trans (hwv : Grows id w v) (hvu : Grows id v u) : Grows id w u := by
  refine ⟨hvu.database_eq.trans hwv.database_eq, hvu.starts_eq.trans hwv.starts_eq,
    hwv.precedes.trans hvu.precedes, fun _ h => hvu.written (hwv.written h), ?_⟩
  intro r hr
  obtain ⟨q, hq, hle⟩ := hwv.winning r hr
  obtain ⟨q', hq', hle'⟩ := hvu.winning q hq
  exact ⟨q', hq', Int.le_trans hle hle'⟩

theorem Grows.recorded (h : w.Sound xs) (id docId : String) (g : Nat) (deleted : Bool) (body : Object) :
    Grows id w (w.recorded docId g deleted body) := by
  refine ⟨rfl, rfl, Store.precedes_record _ _ _ _ _, List.subset_append_left _ _, ?_⟩
  intro q hq
  by_cases hid : id = docId
  · refine ⟨_, (Store.winning?_record _ _ _ _ _ _).trans (if_pos hid), ?_⟩
    exact Int.le_trans (h.store.winning_bounded hq).2 (Int.le_of_lt (Int.lt_succ _))
  · exact ⟨q, (Store.winning?_record _ _ _ _ _ _).trans ((if_neg hid).trans hq), Int.le_refl _⟩

theorem Grows.purge (w : World) {docId : String} (hid : docId ≠ id) : Grows id w (w.step (.purge docId)) := by
  refine ⟨rfl, rfl, Store.precedes_purge _ _, fun _ hr => hr, ?_⟩
  intro r hr
  exact ⟨r, (Store.winning?_purge _ _ _).trans ((if_neg (Ne.symm hid)).trans hr), Int.le_refl _⟩

theorem Grows.step (h : w.Sound xs) (he : e.Spares id) : Grows id w (w.step e) := by
  rcases step_write_cases w he.1 with ⟨docId, rfl⟩ | hsame | ⟨docId, g, deleted, body, hstep⟩
  · exact Grows.purge w (he.2 docId rfl)
  · rw [hsame]
    exact Grows.refl id w
  · rw [hstep]
    exact Grows.recorded h id docId g deleted body

theorem Sound.run_writes (h : w.Sound xs) {events : List Event} (he : ∀ e ∈ events, e.Spares id) :
    (w.run events).Sound xs ∧ Grows id w (w.run events) := by
  induction events generalizing w with
  | nil => exact ⟨h, Grows.refl id w⟩
  | cons e rest ih =>
    have hfirst := he e List.mem_cons_self
    obtain ⟨hsound, hgrows⟩ := ih (h.write hfirst.1) fun e' he' => he e' (List.mem_cons_of_mem _ he')
    exact ⟨hsound, (Grows.step h hfirst).trans hgrows⟩

end World

/-! ## A call -/

namespace Session

/-- The sequence that a page leads to. -/
def pageEnd (target : Int) (batchSize : Nat) (f : Store × Int) : Int :=
  (Page.cut target (max batchSize 1) (f.1.changesSince f.2 (max batchSize 1))).checkpoint

/-- Whenever the call fetched a page, the latest revision of the document lay past the end of the page. -/
def Overtaken (s : Session) (id : String) (target : Int) (batchSize : Nat) : Prop :=
  ∀ f ∈ s.fetches, ∃ q, f.1.winning? id = some q ∧ pageEnd target batchSize f < q.sequence

/-- A call that updates an index has come to a checkpoint. It began at the checkpoint `first`, when the latest
revision of the document had the sequence `latest`. -/
structure Underway (s : Session) (index id : String) (start first latest target : Int) (batchSize : Nat)
    (checkpoint : Int) (xs : List Content) (x : Content) : Prop where
  sound : s.world.Sound xs
  mem : x ∈ xs
  name_eq : x.name = index
  starts_eq : s.world.starts index = start
  checkpoint_eq : x.definition.lastSequence = checkpoint
  script : ∀ g ∈ s.script, ∀ e ∈ g.before ++ g.after, e.Spares id
  target_le : target ≤ s.world.store.sequence
  winning : ∃ q, s.world.store.winning? id = some q ∧ latest ≤ q.sequence
  shown : x.Shows s.world.written id latest ∨ (first < latest ∧ s.Overtaken id target batchSize ∧
    (s.fetches = [] ∧ checkpoint = first ∨ ∃ f ∈ s.fetches, pageEnd target batchSize f = checkpoint))

variable {a : Session} {index : String} {first latest checkpoint : Int} {batchSize patience : Nat}

theorem gap_spares (hscript : ∀ g ∈ a.script, ∀ e ∈ g.before ++ g.after, e.Spares id) :
    (∀ e ∈ a.gap.before, e.Spares id) ∧ ∀ e ∈ a.gap.after, e.Spares id := by
  unfold gap
  cases hs : a.script with
  | nil => simp
  | cons g rest =>
    have hg := hscript g (by rw [hs]; exact List.mem_cons_self)
    exact ⟨fun e he => hg e (List.mem_append_left _ he), fun e he => hg e (List.mem_append_right _ he)⟩

theorem grows_request (h : a.world.Sound xs)
    (hscript : ∀ g ∈ a.script, ∀ e ∈ g.before ++ g.after, e.Spares id) :
    (a.asked.Sound xs ∧ World.Grows id a.world a.asked) ∧
    (a.left.world.Sound xs ∧ World.Grows id a.asked a.left.world) ∧
    ∀ g ∈ a.left.script, ∀ e ∈ g.before ++ g.after, e.Spares id := by
  obtain ⟨hbefore, hafter⟩ := gap_spares hscript
  have hasked := h.run_writes hbefore
  exact ⟨hasked, hasked.1.run_writes hafter, fun g hg => hscript g (List.mem_of_mem_tail hg)⟩

theorem Underway.applied (h : a.Underway index id start first latest target batchSize checkpoint xs x)
    (hstart : start < latest) (hlt : checkpoint < target) {page : Page}
    (hpage : page = Page.cut target (max batchSize 1) (a.asked.store.changesSince checkpoint (max batchSize 1)))
    {next : Database} (hnext : next.Holds (Content.put (x.apply page) xs)) :
    Underway
      { world := { a.left.world with database := next }, script := a.left.script,
        fetches := a.fetches ++ [(a.asked.store, checkpoint)] }
      index id start first latest target batchSize page.checkpoint (Content.put (x.apply page) xs) (x.apply page) := by
  obtain ⟨⟨hasked, hgrows⟩, ⟨hleft, hgrows'⟩, hscript⟩ := grows_request h.sound h.script
  obtain ⟨q₀, hq₀, hle₀⟩ := h.winning
  obtain ⟨q, hq, hle⟩ := hgrows.winning q₀ hq₀
  obtain ⟨q', hq', hle'⟩ := hgrows'.winning q hq
  have hfetched := hasked.fetch hlt (Int.le_trans h.target_le hgrows.precedes.sequence_le) batchSize
  rw [← hpage] at hfetched
  obtain ⟨htarget, hcovers, hchanges⟩ := hfetched
  have hcovers : page.Covers a.asked.store x.definition.lastSequence := by rw [h.checkpoint_eq]; exact hcovers
  have hname : x.name = (x.apply page).name := (Content.apply_name x page).symm
  refine ⟨?_, Content.mem_put_self h.mem hname, hname.symm.trans h.name_eq, ?_, rfl, hscript, ?_, ?_, ?_⟩
  · exact hleft.applied h.mem (hcovers.of_precedes hgrows'.precedes) (fun r hr => hgrows'.written (hchanges r hr)) hnext
  · rw [← h.starts_eq, ← hgrows.starts_eq, ← hgrows'.starts_eq]
  · exact Int.le_trans htarget hgrows'.precedes.sequence_le
  · exact ⟨q', hq', Int.le_trans hle₀ (Int.le_trans hle hle')⟩
  · have hfollows : x.Follows a.asked.store a.asked.written start := by
      have hx := hasked.follows x h.mem
      rwa [h.name_eq, hgrows.starts_eq, h.starts_eq] at hx
    have hshows := Content.shows_apply hfollows hasked.store hcovers hchanges hq
      (hasked.written id q (Store.mem_history_of_winning? hq)) hstart (Int.le_trans hle₀ hle)
    have hend : pageEnd target batchSize (a.asked.store, checkpoint) = page.checkpoint := by rw [hpage, pageEnd]
    by_cases hpast : q.sequence ≤ page.checkpoint
    · exact Or.inl ((hshows (Or.inr hpast)).of_written hgrows'.written)
    · rcases h.shown with hshown | ⟨hfirst, hover, _⟩
      · exact Or.inl ((hshows (Or.inl (hshown.of_written hgrows.written))).of_written hgrows'.written)
      · right
        refine ⟨hfirst, ?_, Or.inr ⟨_, List.mem_append_right _ (List.mem_singleton_self _), hend⟩⟩
        intro f hf
        rcases List.mem_append.mp hf with hf | hf
        · exact hover f hf
        · rw [List.mem_singleton.mp hf, hend]
          exact ⟨q, hq, by omega⟩

theorem Underway.advance (h : a.Underway index id start first latest target batchSize checkpoint xs x)
    (hstart : start < latest) (hlt : checkpoint < target) :
    (Update.advance (host patience) index (max batchSize 1) target checkpoint).After a
      (fun p b => ∃ next, p = .reached next ∧ checkpoint < next ∧
        ∃ ys y, b.Underway index id start first latest target batchSize next ys y) fun _ _ => True := by
  unfold Update.advance
  refine Action.after_bind (Action.after_ask ?_)
  obtain ⟨⟨hasked, hgrows⟩, ⟨hleft, hgrows'⟩, _⟩ := grows_request h.sound h.script
  cases hfail : a.gap.failure? with
  | some e => simp only [host, answer, hfail]
  | none =>
    simp only [host, answer, hfail]
    let page := Page.cut target (max batchSize 1) (a.asked.store.changesSince checkpoint (max batchSize 1))
    obtain ⟨next, hnext, hholds, _⟩ := hleft.holds.applyBatch_applied h.mem page
    rw [h.name_eq, h.checkpoint_eq] at hnext
    have hcovers := (hasked.fetch hlt (Int.le_trans h.target_le hgrows.precedes.sequence_le) batchSize).2.1
    have happlied := h.applied hstart hlt rfl hholds
    unfold Action.After Update.applyPage
    simp only [page] at hnext
    simp only [hnext]
    exact ⟨_, rfl, hcovers.since_lt, _, _, happlied⟩

theorem Underway.begin (h : a.world.Sound xs) (hx : x ∈ xs) (hname : x.name = index)
    (hscript : ∀ g ∈ a.script, ∀ e ∈ g.before ++ g.after, e.Spares id) (hfetches : a.fetches = [])
    (hr : a.world.store.winning? id = some r) (hstart : a.world.starts index < r.sequence) :
    a.left.Underway index id (a.world.starts index) x.definition.lastSequence r.sequence a.asked.store.sequence
      batchSize x.definition.lastSequence xs x := by
  obtain ⟨⟨_, hgrows⟩, ⟨hleft, hgrows'⟩, hscript'⟩ := grows_request h hscript
  have hgrown := hgrows.trans hgrows'
  refine ⟨hleft, hx, hname, by rw [hgrown.starts_eq], rfl, hscript', hgrows'.precedes.sequence_le,
    hgrown.winning r hr, ?_⟩
  by_cases hle : r.sequence ≤ x.definition.lastSequence
  · left
    have hrep := (h.follows x hx).current id r hr (by rwa [hname]) hle
    exact ⟨r, hgrown.written (h.written id r (Store.mem_history_of_winning? hr)), h.store.winning_docId hr,
      Int.le_refl _, hle, hrep⟩
  · right
    have hnone : a.left.fetches = [] := hfetches
    refine ⟨by omega, ?_, Or.inl ⟨hnone, rfl⟩⟩
    intro f hf
    rw [hnone] at hf
    exact absurd hf List.not_mem_nil

/-- What a call has come to when its target is reached: it shows the document as of its latest revision when it
began or a later one, or the document was written again before the feed was fetched. -/
theorem Underway.finish (h : a.Underway index id start first latest target batchSize checkpoint xs x)
    (hstart : start < latest) (hlatest : latest ≤ target) (hle : target ≤ checkpoint) :
    x.Shows a.world.written id latest ∨
    (a.Overtaken id target batchSize ∧ (∃ f ∈ a.fetches, ∃ q, f.1.winning? id = some q ∧ target < q.sequence) ∧
      ∃ q, a.world.store.winning? id = some q ∧ checkpoint < q.sequence) := by
  rcases h.shown with hshown | ⟨hfirst, hover, hfetches⟩
  · exact Or.inl hshown
  · obtain ⟨q, hq, hleq⟩ := h.winning
    by_cases hpast : q.sequence ≤ checkpoint
    · left
      have hcheckpoint := h.checkpoint_eq
      have hrep := (h.sound.follows x h.mem).current id q hq (by rw [h.name_eq, h.starts_eq]; omega) (by omega)
      exact ⟨q, h.sound.written id q (Store.mem_history_of_winning? hq), h.sound.store.winning_docId hq, hleq,
        by omega, hrep⟩
    · right
      refine ⟨hover, ?_, q, hq, by omega⟩
      rcases hfetches with ⟨_, heq⟩ | ⟨f, hf, hend⟩
      · omega
      · obtain ⟨q', hq', hlt⟩ := hover f hf
        exact ⟨f, hf, q', hq', by omega⟩

theorem Underway.after_updateIndex (h : a.world.Sound xs)
    (hscript : ∀ g ∈ a.script, ∀ e ∈ g.before ++ g.after, e.Spares id) (hfetches : a.fetches = [])
    (hr : a.world.store.winning? id = some r) (hstart : a.world.starts index < r.sequence) (patience batchSize : Nat) :
    (Update.updateIndex (host patience) batchSize index).After a
      (fun c? b => ∀ c, c? = some c → ∃ first ys y, a.asked.store.sequence ≤ c ∧
        b.Underway index id (a.world.starts index) first r.sequence a.asked.store.sequence batchSize c ys y)
      fun _ _ => True := by
  obtain ⟨_, ⟨hleft, _⟩, _⟩ := grows_request h hscript
  unfold Update.updateIndex
  refine Action.after_bind (Action.after_ask ?_)
  cases hfail : a.gap.failure? with
  | some e => simp only [host, answer, hfail]
  | none =>
    simp only [host, answer, hfail]
    rcases exists_name_or xs index with ⟨x, hx, hname⟩ | hnone
    · have hread := hleft.holds.lastSequence? hx
      rw [hname] at hread
      refine Action.after_bind (Action.after_look (v := some x.definition.lastSequence) ?_ ?_)
      · simp only [hread]
        rfl
      · have hbegin : a.left.Underway index id (a.world.starts index) x.definition.lastSequence r.sequence
            a.asked.store.sequence batchSize x.definition.lastSequence xs x :=
          Underway.begin h hx hname hscript hfetches hr hstart
        have hstep : ∀ since s, (∃ ys y, s.Underway index id (a.world.starts index) x.definition.lastSequence
              r.sequence a.asked.store.sequence batchSize since ys y) → since < a.asked.store.sequence →
            (Update.advance (host patience) index (max batchSize 1) a.asked.store.sequence since).After s
              (fun p b => ∃ next, p = .reached next ∧ since < next ∧ ∃ ys y,
                b.Underway index id (a.world.starts index) x.definition.lastSequence r.sequence
                  a.asked.store.sequence batchSize next ys y)
              fun _ _ => True := by
          rintro since s ⟨ys, y, hs⟩ hlt
          exact hs.advance hstart hlt
        refine (Update.after_settle hstep patience ⟨xs, x, hbegin⟩).mono ?_ fun _ _ he => he
        rintro _ t ⟨checkpoint, rfl, hle, ys, y, ht⟩ c hc
        obtain rfl := Option.some.inj hc
        exact ⟨x.definition.lastSequence, ys, y, hle, ht⟩
    · refine Action.after_bind (Action.after_look (v := none) ?_ ?_)
      · simp only [hleft.holds.lastSequence?_none hnone]
        rfl
      · refine Action.after_pure ?_
        intro c hc
        cases hc

/-- An update among writes that returns a checkpoint has brought the index there. It shows a document that the
index starts before as of its latest revision when the update began, or as of a later one, unless the document
was written again after the target was read and before the feed was: whenever the update fetched a page, the
latest revision lay past the page, once past the target. Then it lies past the new checkpoint too and is left
to the next update. -/
theorem updateIndex_shows_or_overtaken (events : List Event) (script : List Gap) (patience batchSize : Nat)
    (index id : String) (hscript : ∀ g ∈ script, ∀ e ∈ g.before ++ g.after, e.Spares id) (r : Revision)
    (hr : (World.run {} events).store.winning? id = some r)
    (hstart : (World.run {} events).starts index < r.sequence) (c : Int) (b : Session)
    (hcall : Update.updateIndex (host patience) batchSize index ⟨World.run {} events, script, []⟩ =
      (.ok (some c), b)) :
    ∃ d rows, b.world.database.definition? index = .ok (some d) ∧ d.lastSequence = c ∧
      b.world.rows? d = .ok rows ∧
      ((∃ q ∈ b.world.written, q.docId = id ∧ r.sequence ≤ q.sequence ∧ q.sequence ≤ c ∧
        rows.filter (·.docId == id) = if q.deleted then [] else (d.documentRows q).rows) ∨
      (let target := (asked ⟨World.run {} events, script, []⟩).store.sequence
       b.Overtaken id target batchSize ∧
        (∃ f ∈ b.fetches, ∃ q, f.1.winning? id = some q ∧ target < q.sequence) ∧
        ∃ q, b.world.store.winning? id = some q ∧ c < q.sequence)) := by
  obtain ⟨xs, hsound⟩ := World.Sound.empty.run events
  have hafter := Underway.after_updateIndex (a := ⟨World.run {} events, script, []⟩) hsound hscript rfl hr hstart
    patience batchSize
  obtain ⟨first, ys, y, hle, h⟩ := hafter.of_ok hcall c rfl
  have hlatest : r.sequence ≤ (asked ⟨World.run {} events, script, []⟩).store.sequence := by
    obtain ⟨⟨_, hgrows⟩, _⟩ := grows_request (a := ⟨World.run {} events, script, []⟩) hsound hscript
    exact Int.le_trans (hsound.store.winning_bounded hr).2 hgrows.precedes.sequence_le
  have hdefinition := h.sound.holds.definition? h.mem
  rw [h.name_eq] at hdefinition
  refine ⟨y.definition, y.rows, hdefinition, h.checkpoint_eq, (h.sound.agrees h.mem).1, ?_⟩
  refine (h.finish hstart hlatest hle).imp_left ?_
  rintro ⟨q, hq, hid, hge, hbound, hrep⟩
  refine ⟨q, hq, hid, hge, by rw [← h.checkpoint_eq]; exact hbound, ?_⟩
  rw [← hid]
  exact hrep.rows_eq

/-- A store with one document, and an index that has not seen it yet. -/
def oneUnseen : List Event :=
  [.create "ann" [("age", .number (.int 40))], .ensure { name := "ages", fields := [{ path := "age" }] } "" 0]

/-- Others write the document again between the first two requests of a call. -/
def rewrite : List Gap := [{}, { before := [.update "ann" "1-000001" [("age", .number (.int 41))]] }]

/-- The update of the index meanwhile. -/
def overtakenCall : Except QueryError (Option Int) × Session :=
  Update.updateIndex (host 0) 10 "ages" ⟨World.run {} oneUnseen, rewrite, []⟩

theorem rewrite_spares : ∀ g ∈ rewrite, ∀ e ∈ g.before ++ g.after, e.Spares "ann" := by
  intro g hg e he
  simp only [rewrite, List.mem_cons, List.not_mem_nil, or_false] at hg
  rcases hg with rfl | rfl
  · simp at he
  · simp only [List.append_nil, List.mem_singleton] at he
    subst he
    exact ⟨trivial, fun docId h => nomatch h⟩

theorem overtakenCall_eq : overtakenCall = (.ok (some 1), overtakenCall.2) := by
  have h : overtakenCall.1.toOption = some (some 1) := by decide +kernel
  rcases hc : overtakenCall with ⟨result, b⟩
  rw [hc] at h
  cases result with
  | error e => cases h
  | ok c? =>
    obtain rfl : c? = some 1 := Option.some.inj h
    rfl

theorem oneUnseen_winning : ∃ r, (World.run {} oneUnseen).store.winning? "ann" = some r ∧
    (World.run {} oneUnseen).starts "ages" < r.sequence := by
  have h : ((World.run {} oneUnseen).store.winning? "ann").any
      (fun r => (World.run {} oneUnseen).starts "ages" < r.sequence) = true := by decide +kernel
  obtain ⟨r, hr, hlt⟩ := Option.any_eq_true _ _ |>.mp h
  exact ⟨r, hr, of_decide_eq_true hlt⟩

theorem updateIndex_rewritten : ∃ r, (World.run {} oneUnseen).store.winning? "ann" = some r ∧
    ∃ d rows, overtakenCall.2.world.database.definition? "ages" = .ok (some d) ∧ d.lastSequence = 1 ∧
      overtakenCall.2.world.rows? d = .ok rows ∧
      ((∃ q ∈ overtakenCall.2.world.written, q.docId = "ann" ∧ r.sequence ≤ q.sequence ∧ q.sequence ≤ 1 ∧
        rows.filter (·.docId == "ann") = if q.deleted then [] else (d.documentRows q).rows) ∨
      (let target := (asked ⟨World.run {} oneUnseen, rewrite, []⟩).store.sequence
       overtakenCall.2.Overtaken "ann" target 10 ∧
        (∃ f ∈ overtakenCall.2.fetches, ∃ q, f.1.winning? "ann" = some q ∧ target < q.sequence) ∧
        ∃ q, overtakenCall.2.world.store.winning? "ann" = some q ∧ 1 < q.sequence)) := by
  obtain ⟨r, hr, hstart⟩ := oneUnseen_winning
  exact ⟨r, hr, updateIndex_shows_or_overtaken oneUnseen rewrite 0 10 "ages" "ann" rewrite_spares r hr hstart 1 _
    overtakenCall_eq⟩

/-- A document that is there all the time can be missing from the index after an update: here it is written
again between the target and the feed. -/
theorem not_updateIndex_shows : ¬ ∀ (events : List Event) (script : List Gap) (patience batchSize : Nat)
    (index id : String) (_ : ∀ g ∈ script, ∀ e ∈ g.before ++ g.after, e.Spares id) (r : Revision)
    (_ : (World.run {} events).store.winning? id = some r)
    (_ : (World.run {} events).starts index < r.sequence) (c : Int) (b : Session)
    (_ : Update.updateIndex (host patience) batchSize index ⟨World.run {} events, script, []⟩ = (.ok (some c), b)),
    ∃ d rows, b.world.database.definition? index = .ok (some d) ∧ b.world.rows? d = .ok rows ∧
      ∃ q ∈ b.world.written, q.docId = id ∧ r.sequence ≤ q.sequence ∧
        rows.filter (·.docId == id) = if q.deleted then [] else (d.documentRows q).rows := by
  intro h
  obtain ⟨r, hr, hstart⟩ := oneUnseen_winning
  obtain ⟨d, rows, hd, hrows, q, hq, _, _, heq⟩ :=
    h oneUnseen rewrite 0 10 "ages" "ann" rewrite_spares r hr hstart 1 _ overtakenCall_eq
  have hfound : (overtakenCall.2.world.database.definition? "ages").toOption = some (some
      { name := "ages", kind := .value, fields := [{ path := "age" }], lastSequence := 1 }) := by decide +kernel
  rw [hd] at hfound
  obtain rfl := Option.some.inj (Option.some.inj hfound)
  have hnone : (overtakenCall.2.world.rows?
      { name := "ages", kind := .value, fields := [{ path := "age" }], lastSequence := 1 }).toOption = some [] := by
    decide +kernel
  rw [hrows] at hnone
  obtain rfl : rows = [] := Option.some.inj hnone
  have hall : ∀ q ∈ overtakenCall.2.world.written, (if q.deleted then [] else (Definition.documentRows
      { name := "ages", kind := .value, fields := [{ path := "age" }], lastSequence := 1 } q).rows) ≠ [] := by
    decide +kernel
  exact hall q hq heq.symm

end Session

end DocIndex
