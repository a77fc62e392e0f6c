import DocIndex.Proofs.Database.Recorded
import DocIndex.Proofs.Maintenance.Visits

/-! # Declaring an index again

An index that was declared is found again by the same request, whatever happened in between, unless it was deleted. The
request changes nothing then. Another request for an index of this name is a conflict, and changes nothing either.
-/

namespace DocIndex

def Happening.Spares (name : String) : Happening → Prop
  | .visit v => v.DeletesOnly (· ≠ name)
  | .event e => e.DeletesOnly (· ≠ name)

namespace World

variable {w : World}

theorem orderly_happened (h : w.database.Orderly) (happenings : List Happening) :
    (w.happened happenings).database.Orderly := by
  induction happenings generalizing w with
  | nil => exact h
  | cons happening rest ih =>
    refine ih ?_
    cases happening with
    | visit v => exact Visit.outcome_keeps Database.Orderly.kept v.deletesOnly_true h
    | event e => exact step_keeps Database.Orderly.kept h e.deletesOnly_true

theorem records_happened {d : Definition} (h : w.database.Records d) {happenings : List Happening}
    (hspares : ∀ happening ∈ happenings, happening.Spares d.name) : (w.happened happenings).database.Records d := by
  induction happenings generalizing w with
  | nil => exact h
  | cons happening rest ih =>
    have hfirst := hspares happening List.mem_cons_self
    refine ih ?_ fun other hother => hspares other (List.mem_cons_of_mem _ hother)
    cases happening with
    | visit v => exact Visit.outcome_keeps (Database.Records.kept d) hfirst h
    | event e => exact step_keeps (Database.Records.kept d) h hfirst

end World

namespace Manager

open DocIndex.Action

variable {σ : Type} {m : Manager σ} {spec : IndexSpec} {s t : σ} {start : Int}

theorem ensure_eq (hvalidate : (spec.withDefaultTokenizer m.settings.defaultTokenizer).validate = .ok ())
    (htext : spec.kind = .text → m.textSearch = true) (hstart : m.startSequence s = (.ok start, t)) :
    m.ensure spec s =
      match (m.host.database t).ensure (spec.withDefaultTokenizer m.settings.defaultTokenizer) start with
      | .ok db => (.ok spec.name, m.host.setDatabase db t)
      | .error e => (.error e, t) := by
  have hkind : (spec.withDefaultTokenizer m.settings.defaultTokenizer).kind = spec.kind := by
    unfold IndexSpec.withDefaultTokenizer
    split <;> rfl
  have hallowed : ¬ (spec.kind = .text ∧ (!m.textSearch) = true) := by
    rintro ⟨hk, hunavailable⟩
    rw [htext hk] at hunavailable
    cases hunavailable
  unfold ensure
  rw [bind_apply, hvalidate]
  dsimp only [liftM, monadLift, MonadLift.monadLift]
  rw [hkind, if_neg hallowed, IndexSpec.withDefaultTokenizer_name]
  show (m.startSequence >>= fun start => _) s = _
  rw [bind_apply, hstart]
  dsimp only
  rw [bind_apply]
  dsimp only [Host.transact]
  cases (m.host.database t).ensure (spec.withDefaultTokenizer m.settings.defaultTokenizer) start <;> rfl

theorem textSearch_of_ensure {name : String} (h : (m.ensure spec s).1 = .ok name) (hk : spec.kind = .text) :
    m.textSearch = true := by
  have hafter : After (m.ensure spec) s (fun _ _ => m.textSearch = true) fun _ _ => True := by
    unfold ensure
    refine after_bind ((after_self _ s).mono (fun _ t _ => ?_) fun _ _ _ => trivial)
    dsimp only
    split
    · exact after_bind trivial
    · rename_i hallowed
      have hkind : (spec.withDefaultTokenizer m.settings.defaultTokenizer).kind = .text := by
        unfold IndexSpec.withDefaultTokenizer
        split <;> exact hk
      have hsearch : m.textSearch = true := by simpa [hkind] using hallowed
      exact (after_self _ t).mono (fun _ _ _ => hsearch) fun _ _ _ => trivial
  unfold After at hafter
  rcases hresult : m.ensure spec s with ⟨result, t⟩
  rw [hresult] at h hafter
  obtain rfl : result = .ok name := h
  exact hafter

end Manager

namespace Visit

variable {v : Visit} {w : World} {spec : IndexSpec} {d : Definition}

/-- A declaration as it goes on when it knows the sequence that a new index would start from. Only an index that is not
filled from the beginning has to ask for it. -/
def met (v : Visit) (w : World) : Session :=
  if v.settings.backfillNewIndexes then v.session w else (v.session w).left

theorem exists_startSequence (hhealthy : (v.script.headD {}).failure? = none) :
    ∃ start, v.manager.startSequence (v.session w) = (.ok start, v.met w) := by
  unfold Manager.startSequence met
  by_cases hbackfill : v.settings.backfillNewIndexes = true
  · refine ⟨0, ?_⟩
    rw [if_pos hbackfill, if_pos (show v.manager.settings.backfillNewIndexes = true from hbackfill)]
    rfl
  · have hanswer :
        (v.session w).answer (v.session w).asked.store.sequence = .ok (v.session w).asked.store.sequence := by
      have hgap : (v.session w).gap.failure? = none := hhealthy
      unfold Session.answer
      rw [hgap]
    refine ⟨(v.session w).asked.store.sequence, ?_⟩
    rw [if_neg hbackfill, if_neg (show ¬ v.manager.settings.backfillNewIndexes = true from hbackfill)]
    simp only [Host.ask, manager, Session.host, hanswer]

theorem met_keeps {p : Database → Prop} {mayGo : String → Prop} (hp : Database.Kept p mayGo) (h : p w.database)
    (hothers : ∀ g ∈ v.script, ∀ e ∈ g.before ++ g.after, e.DeletesOnly mayGo) : p (v.met w).world.database := by
  have hkeeps : (v.session w).Keeps p mayGo := ⟨h, hothers⟩
  unfold met
  split
  · exact h
  · exact (hkeeps.left hp).database

theorem ensure_met (hrecorded : (v.met w).world.database.definition? spec.name = .ok (some d))
    (hvalidate : (spec.withDefaultTokenizer v.settings.defaultTokenizer).validate = .ok ())
    (htext : spec.kind = .text → v.textSearch = true) (hhealthy : (v.script.headD {}).failure? = none) :
    (d.Agrees (spec.withDefaultTokenizer v.settings.defaultTokenizer) →
        v.manager.ensure spec (v.session w) = (.ok spec.name, v.met w)) ∧
      (¬ d.Agrees (spec.withDefaultTokenizer v.settings.defaultTokenizer) →
        v.manager.ensure spec (v.session w) =
          (.error (.indexConflict (.differentDefinition spec.name)), v.met w)) := by
  obtain ⟨start, hstart⟩ := exists_startSequence (w := w) hhealthy
  have hensure := Manager.ensure_eq (m := v.manager) hvalidate htext hstart
  rw [← IndexSpec.withDefaultTokenizer_name spec v.settings.defaultTokenizer] at hrecorded
  obtain ⟨hgranted, hrefused⟩ := Database.ensure_recorded hrecorded start
  rw [IndexSpec.withDefaultTokenizer_name] at hrefused
  constructor
  · intro hagrees
    have hok : (v.manager.host.database (v.met w)).ensure
        (spec.withDefaultTokenizer v.manager.settings.defaultTokenizer) start = .ok _ := hgranted hagrees
    rw [hensure, hok]
    rfl
  · intro hagrees
    have herror : (v.manager.host.database (v.met w)).ensure
        (spec.withDefaultTokenizer v.manager.settings.defaultTokenizer) start = .error _ := hrefused hagrees
    rw [hensure, herror]

/-- What a granted request leaves. -/
structure Granted (v : Visit) (w : World) (spec : IndexSpec) (d : Definition) : Prop where
  validate_eq : (spec.withDefaultTokenizer v.settings.defaultTokenizer).validate = .ok ()
  name_eq : d.name = spec.name
  agrees : d.Agrees (spec.withDefaultTokenizer v.settings.defaultTokenizer)
  records : (v.manager.ensure spec (v.session w)).2.world.database.Records d

theorem granted_of_ensure (h : w.database.Orderly) (hsettings : spec.settings.Ascending) {name : String}
    (hgranted : (v.manager.ensure spec (v.session w)).1 = .ok name) : ∃ d, v.Granted w spec d := by
  obtain ⟨hvalidate, t, start, db, ht, hok, hafter⟩ :=
    (Manager.after_ensure v.manager spec (v.session w)).of_ok (Prod.ext hgranted rfl)
  have hmet : t.world.database.Orderly := by
    rcases ht with rfl | rfl
    · exact h
    · exact Session.orderly_left h
  have haccepted := IndexSpec.Accepted.withDefaultTokenizer hsettings _ hvalidate
  obtain ⟨d, hname, hagrees, hrecords⟩ := hmet.records_ensure haccepted hok
  rw [IndexSpec.withDefaultTokenizer_name] at hname
  have hleft : (v.manager.ensure spec (v.session w)).2 = v.manager.host.setDatabase db t := hafter
  refine ⟨d, hvalidate, hname, hagrees, ?_⟩
  rw [hleft]
  exact hrecords

/-- A request finds the index that it once declared and changes nothing, and every other valid request for this name
with which the recorded definition does not agree is refused and changes nothing. -/
structure Redeclares (v : Visit) (w : World) (spec : IndexSpec) : Prop where
  again : v.manager.ensure spec (v.session w) = (.ok spec.name, v.met w)
  recorded : ∃ d, (v.met w).world.database.definition? spec.name = .ok (some d) ∧
    d.Agrees (spec.withDefaultTokenizer v.settings.defaultTokenizer) ∧
    ∀ other : IndexSpec, other.name = spec.name →
      (other.withDefaultTokenizer v.settings.defaultTokenizer).validate = .ok () →
      (other.kind = .text → v.textSearch = true) →
      ¬ d.Agrees (other.withDefaultTokenizer v.settings.defaultTokenizer) →
      v.manager.ensure other (v.session w) = (.error (.indexConflict (.differentDefinition spec.name)), v.met w)

end Visit

namespace World

/-- A request that was granted once is granted again whatever has happened since then, if the index was not deleted, and
it changes nothing then. Other valid requests for an index of this name are refused if the recorded definition does not
agree with them. -/
theorem happened_redeclares (early later : List Happening) (first again : Visit) (spec : IndexSpec)
    (hsettings : spec.settings.Ascending)
    (hgranted : (first.manager.ensure spec (first.session (happened {} early))).1 = .ok spec.name)
    (hspares : ∀ happening ∈ later, happening.Spares spec.name)
    (hothers : ∀ g ∈ again.script, ∀ e ∈ g.before ++ g.after, e.DeletesOnly (· ≠ spec.name))
    (htokenizer : again.settings.defaultTokenizer = first.settings.defaultTokenizer)
    (htext : again.textSearch = first.textSearch) (hhealthy : (again.script.headD {}).failure? = none) :
    let w := happened (first.manager.ensure spec (first.session (happened {} early))).2.world later
    again.Redeclares w spec ∧ (again.script = [] → (again.met w).world = w) := by
  have horderly := orderly_happened (w := {}) .empty early
  obtain ⟨d, hfirst⟩ := Visit.granted_of_ensure horderly hsettings hgranted
  have hrecorded := records_happened hfirst.records (by rw [hfirst.name_eq]; exact hspares)
  generalize (happened (first.manager.ensure spec (first.session (happened {} early))).2.world later) = w at hrecorded ⊢
  have hmet := Visit.met_keeps (v := again) (Database.Records.kept d) hrecorded (by rw [hfirst.name_eq]; exact hothers)
  obtain ⟨current, hcurrent, hcontinues⟩ := hmet.recorded
  rw [hfirst.name_eq] at hcurrent
  have hagrees := hfirst.agrees.of_continues hcontinues
  have hvalidate := hfirst.validate_eq
  rw [← htokenizer] at hagrees hvalidate
  have hsearch : spec.kind = .text → again.textSearch = true := by
    rw [htext]
    exact Manager.textSearch_of_ensure hgranted
  dsimp only
  refine ⟨⟨(Visit.ensure_met hcurrent hvalidate hsearch hhealthy).1 hagrees, current, hcurrent, hagrees, ?_⟩, ?_⟩
  · intro other hname hother hkind hdiffers
    rw [← hname] at hcurrent ⊢
    exact (Visit.ensure_met hcurrent hother hkind hhealthy).2 hdiffers
  · intro hscript
    unfold Visit.met
    split
    · rfl
    · simp [Visit.session, Session.left, Session.gap, Session.asked, hscript, run]

/-- An index without declared types. -/
def heights : IndexSpec := { name := "heights", fields := [{ path := "height" }] }

def declaring : Visit := { call := .ensure heights Settings.ascending_nil }

/-- The type of the field becomes known, the index is rebuilt, and another index comes and goes. -/
def sinceDeclared : List Happening :=
  [.event (.create "ann" [("height", .int 170)]), .visit { call := .updateAll }, .event (.setLayout "heights" 1),
    .visit { call := .reopen {} .absent none },
    .visit { call := .ensure { name := "names", fields := [{ path := "name" }] } Settings.ascending_nil },
    .visit { call := .deleteIndex "names" }]

/-- The same index with a declared type, which is not the recorded one. -/
def heightsAsTexts : IndexSpec := { heights with fields := [{ path := "height", type? := some .string }] }

theorem happened_redeclares_heights :
    let w := happened (declaring.manager.ensure heights (declaring.session (happened {} []))).2.world sinceDeclared
    declaring.manager.ensure heights (declaring.session w) = (.ok "heights", declaring.session w) ∧
    declaring.manager.ensure heightsAsTexts (declaring.session w) =
      (.error (.indexConflict (.differentDefinition "heights")), declaring.session w) ∧
    (w.database.definition? "heights").toOption =
      some (some { name := "heights", kind := .value, fields := [{ path := "height", type? := some .number }] }) := by
  intro w
  have hspares : ∀ happening ∈ sinceDeclared, happening.Spares "heights" := by
    have hvisit : ∀ call : Call, call ≠ .deleteIndex "heights" →
        (Happening.visit { call }).Spares "heights" := by
      refine fun call hcall => ⟨fun name hname => ?_, fun g hg => absurd hg List.not_mem_nil⟩
      rintro rfl
      exact hcall hname
    simp only [sinceDeclared, List.forall_mem_cons]
    exact ⟨trivial, hvisit _ nofun, trivial, hvisit _ nofun, hvisit _ nofun, hvisit _ (by simp),
      fun g hg => absurd hg List.not_mem_nil⟩
  have hgranted : (declaring.manager.ensure heights (declaring.session (happened {} []))).1 = .ok heights.name :=
    ok_of_toOption (by decide +kernel)
  obtain ⟨⟨hagain, d, hd, _, hothers⟩, _⟩ := happened_redeclares [] sinceDeclared declaring declaring heights .nil
    hgranted hspares (fun g hg => absurd hg List.not_mem_nil) rfl rfl rfl
  have hdefinition : (w.database.definition? "heights").toOption =
      some (some { name := "heights", kind := .value, fields := [{ path := "height", type? := some .number }] }) := by
    decide +kernel
  refine ⟨hagain, hothers heightsAsTexts rfl (by rfl) nofun fun hagrees => ?_, hdefinition⟩
  have hrecorded : w.database.definition? "heights" = .ok (some d) := hd
  rw [hrecorded] at hdefinition
  obtain rfl := Option.some.inj (Option.some.inj hdefinition)
  rw [← Definition.matches_iff_agrees] at hagrees
  exact absurd hagrees (by decide +kernel)

end World

end DocIndex
