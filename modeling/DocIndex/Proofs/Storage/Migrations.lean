import DocIndex.Storage.Schema
import Mathlib.Data.List.Basic
import Mathlib.Data.List.Infix

/-! # Runs of migrations

The owner of a component lists its migrations in ascending order and adds new ones at the end. A run makes those that
are not recorded, in turn, up to the first that fails, so the record always is the beginning of the list, and the
contents of the database are what the recorded migrations make, each run once. Scripts and what they do are left open.
-/

namespace DocIndex

namespace Layout

variable {κ σ : Type} (execute : κ → σ → Except String σ)

def pending (s : Layout σ) (c : Call κ) : List (Migration κ) :=
  c.migrations.filter (·.version ∉ s.recorded c.component)

def runAll (log : List (String × Migration κ)) (contents : σ) : Except String σ :=
  log.foldlM (fun contents e => execute e.2.changes contents) contents

/-- From `s` to `t` the scripts of a log were run in order, each once, and recorded; and nothing else was. -/
structure Reaches (s : Layout σ) (log : List (String × Migration κ)) (t : Layout σ) : Prop where
  contents : runAll execute log s.contents = .ok t.contents
  applied : t.applied = s.applied ++ log.map fun e => (e.1, e.2.version)

/-- What a call leaves undone: nothing, or a migration that fails and all behind it. -/
def Stopped (component : String) (t : Layout σ) (rest : List (Migration κ)) : Option StorageError → Prop
  | none => rest = []
  | some e => ∃ m later reason, rest = m :: later ∧ execute m.changes t.contents = .error reason ∧
      e = .migration component m.version m.description reason

/-- Every list ascends from above 0, and of two lists of a component one goes on where the other ends. -/
structure Consistent (calls : List (Call κ)) : Prop where
  positive : ∀ c ∈ calls, ∀ v ∈ c.versions, 0 < v
  ascending : ∀ c ∈ calls, c.versions.Pairwise (· < ·)
  nested : ∀ c ∈ calls, ∀ c' ∈ calls, c.component = c'.component →
    c.versions <+: c'.versions ∨ c'.versions <+: c.versions

/-- How a call goes on from a record: it makes what is pending, in turn. -/
structure Resumes (s : Layout σ) (c : Call κ) (done rest : List (Migration κ)) (e? : Option StorageError)
    (t : Layout σ) : Prop where
  pending_eq : s.pending c = done ++ rest
  reaches : Reaches execute s (done.map (c.component, ·)) t
  stopped : Stopped execute c.component t rest e?

/-- The record of a component and its list begin alike. -/
structure Fits (s : Layout σ) (c : Call κ) : Prop where
  positive : ∀ v ∈ c.versions, 0 < v
  recorded_positive : ∀ v ∈ s.recorded c.component, 0 < v
  ascending : c.versions.Pairwise (· < ·)
  nested : s.recorded c.component <+: c.versions ∨ c.versions <+: s.recorded c.component

variable {execute} {s t u : Layout σ} {c : Call κ} {calls : List (Call κ)} {log later : List (String × Migration κ)}
variable {component : String}

/-! ## Versions -/

theorem highest_nil : highest [] = 0 := rfl

theorem le_highest {vs : List Int} {v : Int} (h : v ∈ vs) : v ≤ highest vs := by
  unfold highest
  cases hm : vs.max? with
  | none =>
    rw [List.max?_eq_none_iff.mp hm] at h
    cases h
  | some m => exact (List.max?_eq_some_iff.mp hm).2 v h

theorem highest_mem {vs : List Int} (h : vs ≠ []) : highest vs ∈ vs := by
  unfold highest
  cases hm : vs.max? with
  | none => exact absurd (List.max?_eq_none_iff.mp hm) h
  | some m => exact (List.max?_eq_some_iff.mp hm).1

theorem highest_nonneg {vs : List Int} (h : ∀ v ∈ vs, 0 < v) : 0 ≤ highest vs := by
  by_cases hvs : vs = []
  · exact Int.le_of_eq (congrArg highest hvs).symm
  · exact Int.le_of_lt (h _ (highest_mem hvs))

theorem highest_mono {vs ws : List Int} (hsub : ∀ v ∈ vs, v ∈ ws) (h : ∀ w ∈ ws, 0 < w) :
    highest vs ≤ highest ws := by
  by_cases hvs : vs = []
  · rw [hvs, highest_nil]
    exact highest_nonneg h
  · exact le_highest (hsub _ (highest_mem hvs))

theorem mem_recorded {v : Int} : v ∈ s.recorded component ↔ (component, v) ∈ s.applied := by
  unfold recorded
  constructor
  · intro h
    obtain ⟨e, he, rfl⟩ := List.mem_map.mp h
    obtain ⟨hmem, hkey⟩ := List.mem_filter.mp he
    rw [← eq_of_beq hkey]
    exact hmem
  · exact fun h => List.mem_map.mpr ⟨_, List.mem_filter.mpr ⟨h, beq_self_eq_true _⟩, rfl⟩

namespace Fits

theorem lt_version_iff (h : Fits s c) {m : Migration κ} (hm : m ∈ c.migrations) :
    s.version c.component < m.version ↔ m.version ∉ s.recorded c.component := by
  have hmem : m.version ∈ c.versions := List.mem_map_of_mem hm
  constructor
  · intro hlt hrecorded
    have := le_highest hrecorded
    unfold version at hlt
    omega
  · intro hnew
    rcases h.nested with ⟨tail, htail⟩ | hbegins
    · by_cases hnone : s.recorded c.component = []
      · rw [version, hnone, highest_nil]
        exact h.positive _ hmem
      · have hasc := h.ascending
        rw [← htail] at hasc hmem
        exact (List.pairwise_append.mp hasc).2.2 _ (highest_mem hnone) _ ((List.mem_append.mp hmem).resolve_left hnew)
    · exact absurd (hbegins.subset hmem) hnew

theorem filter_eq_pending (h : Fits s c) :
    c.migrations.filter (s.version c.component < ·.version) = s.pending c :=
  List.filter_congr fun _ hm => decide_eq_decide.mpr (h.lt_version_iff hm)

theorem pending_versions (s : Layout σ) (c : Call κ) :
    (s.pending c).map (·.version) = c.versions.filter (· ∉ s.recorded c.component) := by
  unfold pending Call.versions
  rw [List.filter_map]
  rfl

theorem recorded_append_pending (h : Fits s c) :
    s.recorded c.component ++ (s.pending c).map (·.version) = c.versions ∨
      s.pending c = [] ∧ c.versions <+: s.recorded c.component := by
  rcases h.nested with ⟨tail, htail⟩ | hbegins
  · left
    have hasc := h.ascending
    rw [← htail] at hasc
    have htailNew : tail.filter (· ∉ s.recorded c.component) = tail := by
      rw [List.filter_eq_self]
      intro v hv
      refine decide_eq_true fun hrecorded => ?_
      exact Int.lt_irrefl _ ((List.pairwise_append.mp hasc).2.2 v hrecorded v hv)
    have hfront : (s.recorded c.component).filter (· ∉ s.recorded c.component) = [] := by
      rw [List.filter_eq_nil_iff]
      intro v hv
      simpa using hv
    rw [pending_versions, ← htail, List.filter_append, hfront, htailNew, List.nil_append]
  · refine Or.inr ⟨?_, hbegins⟩
    rw [pending, List.filter_eq_nil_iff]
    intro m hm
    simpa using hbegins.subset (List.mem_map_of_mem hm)

end Fits

/-! ## One call -/

namespace Reaches

theorem refl (s : Layout σ) : Reaches execute s [] s := ⟨rfl, (List.append_nil _).symm⟩

theorem trans (h : Reaches execute s log t) (h' : Reaches execute t later u) : Reaches execute s (log ++ later) u where
  contents := by
    unfold runAll
    rw [List.foldlM_append]
    change (runAll execute log s.contents >>= runAll execute later) = .ok u.contents
    rw [h.contents]
    exact h'.contents
  applied := by rw [h'.applied, h.applied, List.map_append, List.append_assoc]

theorem recorded (h : Reaches execute s log t) (component : String) :
    t.recorded component = s.recorded component ++ (log.filter (·.1 == component)).map (·.2.version) := by
  unfold Layout.recorded
  rw [h.applied, List.filter_append, List.map_append, List.filter_map, List.map_map]
  rfl

theorem recorded_self {ms : List (Migration κ)} (h : Reaches execute s (ms.map (component, ·)) t) :
    t.recorded component = s.recorded component ++ ms.map (·.version) := by
  rw [h.recorded, List.filter_map, List.map_map]
  congr 2
  exact List.filter_eq_self.mpr fun _ _ => beq_self_eq_true component

theorem recorded_other {ms : List (Migration κ)} (h : Reaches execute s (ms.map (component, ·)) t) {other : String}
    (hne : other ≠ component) : t.recorded other = s.recorded other := by
  have hnone : (ms.map (component, ·)).filter (·.1 == other) = [] := by
    rw [List.filter_eq_nil_iff]
    intro e he
    obtain ⟨m, _, rfl⟩ := List.mem_map.mp he
    simpa using hne.symm
  rw [h.recorded, hnone, List.map_nil, List.append_nil]

end Reaches

theorem applyOne_spec (execute : κ → σ → Except String σ) {m : Migration κ}
    (hnew : m.version ∉ s.recorded component) :
    (∃ t, s.applyOne execute component m = .ok t ∧ t.ledger? = some t.applied ∧
      Reaches execute s [(component, m)] t) ∨
    ∃ reason, s.applyOne execute component m = .error (.migration component m.version m.description reason) ∧
      execute m.changes s.contents = .error reason := by
  unfold applyOne
  cases hrun : execute m.changes s.contents with
  | error reason => exact Or.inr ⟨reason, rfl, rfl⟩
  | ok contents =>
    have hfree : s.applied.contains (component, m.version) = false := by
      rw [← Bool.not_eq_true, List.contains_iff_mem]
      exact fun h => hnew (mem_recorded.mpr h)
    refine Or.inl ⟨{ contents, ledger? := some (s.applied ++ [(component, m.version)]) }, ?_, rfl, ?_, rfl⟩
    · simp only [Except.mapError, bind, Except.bind, hfree, Bool.false_eq_true, if_false]
    · simp only [runAll, List.foldlM_cons, List.foldlM_nil, hrun]
      rfl

/-- New migrations are made in turn up to the first that fails. -/
theorem applyEach_spec (execute : κ → σ → Except String σ) {ms : List (Migration κ)}
    (hs : s.ledger? = some s.applied) (hnew : ∀ m ∈ ms, m.version ∉ s.recorded component)
    (hasc : (ms.map (·.version)).Pairwise (· < ·)) :
    (applyEach execute component ms s).2.ledger? = some (applyEach execute component ms s).2.applied ∧
    ∃ done rest, ms = done ++ rest ∧
      Reaches execute s (done.map (component, ·)) (applyEach execute component ms s).2 ∧
      Stopped execute component (applyEach execute component ms s).2 rest (applyEach execute component ms s).1 := by
  induction ms generalizing s with
  | nil => exact ⟨hs, [], [], rfl, Reaches.refl s, rfl⟩
  | cons m rest ih =>
    obtain ⟨hm, hrest⟩ := List.forall_mem_cons.mp hnew
    obtain ⟨hlt, hasc⟩ := List.pairwise_cons.mp hasc
    rw [applyEach]
    rcases applyOne_spec execute hm with ⟨t, hone, ht, hreach⟩ | ⟨reason, hone, hfail⟩
    · rw [hone]
      have hstill : ∀ m' ∈ rest, m'.version ∉ t.recorded component := by
        intro m' hm' hmem
        have hlast : Reaches execute s ([m].map (component, ·)) t := hreach
        have hgt : m.version < m'.version := hlt m'.version (List.mem_map_of_mem hm')
        rw [hlast.recorded_self, List.mem_append] at hmem
        rcases hmem with hmem | hmem
        · exact hrest m' hm' hmem
        · exact Int.ne_of_gt hgt (List.mem_singleton.mp hmem)
      obtain ⟨hledger, done, left, rfl, hreach', hstopped⟩ := ih ht hstill hasc
      exact ⟨hledger, m :: done, left, rfl, hreach.trans hreach', hstopped⟩
    · rw [hone]
      exact ⟨hs, [], m :: rest, rfl, Reaches.refl s, m, rest, reason, rfl, hfail, rfl⟩

theorem call_eq (execute : κ → σ → Except String σ) (s : Layout σ) (c : Call κ) :
    s.call execute c = applyEach execute c.component (c.migrations.filter (s.version c.component < ·.version))
      { s with ledger? := some s.applied } := by
  have hversion : ({ s with ledger? := some s.applied } : Layout σ).version c.component = s.version c.component := rfl
  unfold call migrate
  simp only [hversion]
  split
  · rename_i hle
    have hnone : c.migrations.filter (s.version c.component < ·.version) = [] := by
      rw [List.filter_eq_nil_iff]
      intro m hm
      have : m.version ≤ target c.migrations := le_highest (List.mem_map_of_mem hm)
      simp only [decide_eq_true_eq]
      omega
    rw [hnone]
    rfl
  · rfl

theorem Fits.call (h : Fits s c) (execute : κ → σ → Except String σ) :
    (s.call execute c).2.ledger? = some (s.call execute c).2.applied ∧
    ∃ done rest, Resumes execute s c done rest (s.call execute c).1 (s.call execute c).2 := by
  have hnew : ∀ m ∈ s.pending c, m.version ∉ s.recorded c.component :=
    fun m hm => of_decide_eq_true (List.mem_filter.mp hm).2
  have hasc : ((s.pending c).map (·.version)).Pairwise (· < ·) := by
    rw [Fits.pending_versions]
    exact h.ascending.filter _
  have hmade : ({ s with ledger? := some s.applied } : Layout σ).ledger? =
      some ({ s with ledger? := some s.applied } : Layout σ).applied := rfl
  rw [call_eq, h.filter_eq_pending]
  obtain ⟨hledger, done, rest, heq, hreach, hstopped⟩ := applyEach_spec execute hmade hnew hasc
  exact ⟨hledger, done, rest, heq, ⟨hreach.contents, hreach.applied⟩, hstopped⟩

theorem call_of_recorded (execute : κ → σ → Except String σ) (hs : s.ledger? = some s.applied)
    (h : ∀ m ∈ c.migrations, m.version ∈ s.recorded c.component) : s.call execute c = (none, s) := by
  have hnone : c.migrations.filter (s.version c.component < ·.version) = [] := by
    rw [List.filter_eq_nil_iff]
    intro m hm
    have : m.version ≤ s.version c.component := le_highest (h m hm)
    simp only [decide_eq_true_eq]
    omega
  rw [call_eq, hnone, applyEach, ← hs]

namespace Resumes

variable {done rest : List (Migration κ)} {e? : Option StorageError}

theorem recorded_eq (h : Resumes execute s c done rest e? t) :
    t.recorded c.component = s.recorded c.component ++ done.map (·.version) := h.reaches.recorded_self

theorem recorded_of_ok (h : Resumes execute s c done rest none t) (hf : Fits s c) :
    t.recorded c.component = c.versions ∨
      t.recorded c.component = s.recorded c.component ∧ c.versions <+: s.recorded c.component := by
  have hrest : rest = [] := h.stopped
  have hdone := h.pending_eq
  rw [hrest, List.append_nil] at hdone
  rw [h.recorded_eq, ← hdone]
  rcases hf.recorded_append_pending with hall | ⟨hnone, hbegins⟩
  · exact Or.inl hall
  · rw [hnone]
    exact Or.inr ⟨List.append_nil _, hbegins⟩

theorem version_of_ok (h : Resumes execute s c done rest none t) (hf : Fits s c) :
    t.version c.component = max (target c.migrations) (s.version c.component) := by
  unfold version target
  change highest _ = max (highest c.versions) (highest _)
  rcases h.recorded_of_ok hf with hall | ⟨hsame, hbegins⟩
  · have hle : highest (s.recorded c.component) ≤ highest c.versions := by
      refine highest_mono (fun v hv => ?_) hf.positive
      rw [← hall, h.recorded_eq]
      exact List.mem_append_left _ hv
    rw [hall, Int.max_eq_left hle]
  · rw [hsame, Int.max_eq_right (highest_mono (fun v hv => hbegins.subset hv) hf.recorded_positive)]

theorem call_again (h : Resumes execute s c done rest none t) (hf : Fits s c) (ht : t.ledger? = some t.applied) :
    t.call execute c = (none, t) := by
  refine call_of_recorded execute ht fun m hm => ?_
  have hmem : m.version ∈ c.versions := List.mem_map_of_mem hm
  rcases h.recorded_of_ok hf with hall | ⟨hsame, hbegins⟩
  · exact hall ▸ hmem
  · exact hsame ▸ hbegins.subset hmem

end Resumes

/-! ## Runs of calls -/

/-- What is recorded under a component is the beginning of one of its lists. -/
def Placed (s : Layout σ) (calls : List (Call κ)) (component : String) : Prop :=
  s.recorded component = [] ∨ ∃ c ∈ calls, c.component = component ∧ s.recorded component <+: c.versions

theorem Consistent.mono {earlier : List (Call κ)} (h : Consistent calls) (hsub : ∀ c ∈ earlier, c ∈ calls) :
    Consistent earlier where
  positive := fun c hc => h.positive c (hsub c hc)
  ascending := fun c hc => h.ascending c (hsub c hc)
  nested := fun c hc c' hc' => h.nested c (hsub c hc) c' (hsub c' hc')

theorem Placed.fits (hp : Placed s calls c.component) (h : Consistent (calls ++ [c])) : Fits s c := by
  have hc : c ∈ calls ++ [c] := List.mem_append_right _ (List.mem_singleton_self c)
  refine ⟨h.positive c hc, ?_, h.ascending c hc, ?_⟩
  · rcases hp with hnone | ⟨c', hc', _, hbegins⟩
    · rw [hnone]
      nofun
    · exact fun v hv => h.positive c' (List.mem_append_left _ hc') v (hbegins.subset hv)
  · rcases hp with hnone | ⟨c', hc', hname, hbegins⟩
    · rw [hnone]
      exact Or.inl List.nil_prefix
    · rcases h.nested c' (List.mem_append_left _ hc') c hc hname with hle | hle
      · exact Or.inl (hbegins.trans hle)
      · exact List.prefix_or_prefix_of_prefix hbegins hle

theorem Placed.call (hp : Placed s calls component) (hf : Fits s c) {done rest : List (Migration κ)}
    {e? : Option StorageError} (h : Resumes execute s c done rest e? t) : Placed t (calls ++ [c]) component := by
  have hkept : Placed s (calls ++ [c]) component :=
    hp.imp_right fun ⟨c', hc', hname, hbegins⟩ => ⟨c', List.mem_append_left _ hc', hname, hbegins⟩
  by_cases hname : component = c.component
  · subst hname
    rcases hf.recorded_append_pending with hall | ⟨hnone, _⟩
    · refine Or.inr ⟨c, List.mem_append_right _ (List.mem_singleton_self c), rfl, rest.map (·.version), ?_⟩
      rw [h.recorded_eq, ← hall, h.pending_eq, List.map_append, List.append_assoc]
    · have hdone : done = [] := (List.append_eq_nil_iff.mp (h.pending_eq.symm.trans hnone)).1
      unfold Placed
      rw [h.recorded_eq, hdone, List.map_nil, List.append_nil]
      exact hkept
  · unfold Placed
    rw [h.reaches.recorded_other hname]
    exact hkept

theorem Consistent.after (h : Consistent calls) (execute : κ → σ → Except String σ) (start : σ) :
    ∃ log, Reaches execute { contents := start } log (after execute { contents := start } calls) ∧
      (∀ e ∈ log, ∃ c ∈ calls, c.component = e.1 ∧ e.2 ∈ c.migrations) ∧
      ∀ component, Placed (after execute { contents := start } calls) calls component := by
  induction calls using List.reverseRecOn with
  | nil => exact ⟨[], Reaches.refl _, nofun, fun _ => Or.inl rfl⟩
  | append_singleton calls c ih =>
    obtain ⟨log, hreach, hlisted, hplaced⟩ := ih (h.mono fun c' hc' => List.mem_append_left _ hc')
    have hf := (hplaced c.component).fits h
    obtain ⟨_, done, rest, hresumes⟩ := hf.call execute
    rw [Layout.after, List.foldl_append, List.foldl_cons, List.foldl_nil, ← Layout.after]
    refine ⟨_, hreach.trans hresumes.reaches, fun e he => ?_, fun component => (hplaced component).call hf hresumes⟩
    rcases List.mem_append.mp he with he | he
    · obtain ⟨c', hc', hmem⟩ := hlisted e he
      exact ⟨c', List.mem_append_left _ hc', hmem⟩
    · obtain ⟨m, hm, rfl⟩ := List.mem_map.mp he
      have hpending := List.mem_append_left rest hm
      rw [← hresumes.pending_eq] at hpending
      exact ⟨c, List.mem_append_right _ (List.mem_singleton_self c), rfl, (List.mem_filter.mp hpending).1⟩

theorem prefix_of_map_prefix {α β : Type} {f : α → β} {l k : List α} (h : l.map f <+: k.map f)
    (heq : ∀ a ∈ l, ∀ b ∈ k, f b = f a → b = a) : l <+: k := by
  induction l generalizing k with
  | nil => exact List.nil_prefix
  | cons a rest ih =>
    cases k with
    | nil => simp at h
    | cons b more =>
      rw [List.map_cons, List.map_cons, List.cons_prefix_cons] at h
      obtain rfl := heq a List.mem_cons_self b List.mem_cons_self h.1.symm
      exact List.cons_prefix_cons.mpr ⟨rfl, ih h.2 fun a ha b hb => heq a (List.mem_cons_of_mem _ ha) b
        (List.mem_cons_of_mem _ hb)⟩

theorem Placed.prefix_of_grown (hp : Placed s calls c.component)
    (hgrown : ∀ c' ∈ calls, c'.component = c.component → c'.versions <+: c.versions) :
    s.recorded c.component <+: c.versions := by
  rcases hp with hnone | ⟨c', hc', hname, hbegins⟩
  · rw [hnone]
    exact List.nil_prefix
  · exact hbegins.trans (hgrown c' hc' hname)

/-- Calls of any components, some of which fail, lead to what the recorded migrations make of the start, each run once
and in the order of the record; each is from a list of its component. If lists only grow, the record is the beginning of
the list, and if recorded migrations stay as they were, so are the migrations that were run. A further call goes on with
what is not recorded, up to the first that fails: this leaves no trace and gives the error, and those behind it are not
tried. A call that succeeds ends at the highest version listed or recorded, and when it is repeated, nothing changes. No
call changes the version of another component. -/
theorem after_calls (execute : κ → σ → Except String σ) (start : σ) {calls : List (Call κ)} {c : Call κ}
    (h : Consistent (calls ++ [c])) :
    let s := after execute { contents := start } calls
    let e? := (s.call execute c).1
    let t := (s.call execute c).2
    ∃ log done rest,
      Reaches execute { contents := start } log s ∧
      (∀ e ∈ log, ∃ c' ∈ calls, c'.component = e.1 ∧ e.2 ∈ c'.migrations) ∧
      ((∀ c' ∈ calls, c'.component = c.component → c'.versions <+: c.versions) →
        s.recorded c.component <+: c.versions ∧
        s.recorded c.component ++ (s.pending c).map (·.version) = c.versions ∧
        ((∀ e ∈ log, e.1 = c.component → ∀ m ∈ c.migrations, m.version = e.2.version → m = e.2) →
          (log.filter (·.1 == c.component)).map (·.2) <+: c.migrations)) ∧
      Resumes execute s c done rest e? t ∧
      (e? = none → t.version c.component = max (target c.migrations) (s.version c.component) ∧
        t.call execute c = (none, t)) ∧
      ∀ other, other ≠ c.component → t.version other = s.version other := by
  obtain ⟨log, hreach, hlisted, hplaced⟩ := (h.mono fun c' hc' => List.mem_append_left _ hc').after execute start
  dsimp only
  generalize after execute { contents := start } calls = s at hreach hplaced ⊢
  have hf := (hplaced c.component).fits h
  obtain ⟨hledger, done, rest, hresumes⟩ := hf.call execute
  refine ⟨log, done, rest, hreach, hlisted, fun hgrown => ?_, hresumes, fun hok => ?_, fun other hne => ?_⟩
  · have hbegins := (hplaced c.component).prefix_of_grown hgrown
    have hrecorded : s.recorded c.component = ((log.filter (·.1 == c.component)).map (·.2)).map (·.version) := by
      rw [hreach.recorded, List.map_map]
      rfl
    refine ⟨hbegins, ?_, fun hsame => prefix_of_map_prefix (hrecorded ▸ hbegins) fun m hm m' hm' heq => ?_⟩
    · rcases hf.recorded_append_pending with hall | ⟨hnone, hless⟩
      · exact hall
      · rw [hnone, List.map_nil, List.append_nil]
        exact hbegins.eq_of_length_le hless.length_le
    · obtain ⟨e, he, rfl⟩ := List.mem_map.mp hm
      obtain ⟨hmem, hkey⟩ := List.mem_filter.mp he
      exact hsame e hmem (eq_of_beq hkey) m' hm' heq
  · rw [hok] at hresumes
    exact ⟨hresumes.version_of_ok hf, hresumes.call_again hf hledger⟩
  · unfold version
    rw [hresumes.reaches.recorded_other hne]

/-- Two components, and a second migration of the first one that fails after it has made a table. -/
def brokenCalls : List (Call (List SchemaChange)) :=
  [⟨"notes", [⟨1, "items", [.createTable "items"]⟩, ⟨2, "labels", [.createTable "labels", .malformed]⟩]⟩,
    ⟨"tags", [⟨1, "tags", [.createTable "tags"]⟩]⟩]

/-- The migration is repaired, and another one added. -/
def repairedCall : Call (List SchemaChange) :=
  ⟨"notes", [⟨1, "items", [.createTable "items"]⟩, ⟨2, "labels", [.createTable "labels"]⟩,
    ⟨3, "links", [.createTable "links"]⟩]⟩

/-- What failed is made by the repaired list, along with what is new; the other component is left as it is. -/
theorem after_calls_repaired :
    Consistent (brokenCalls ++ [repairedCall]) ∧
      let s := after Schema.runScript { contents := [] } brokenCalls
      let t := (s.call Schema.runScript repairedCall).2
      t.contents = ["items", "tags", "labels", "links"] ∧ t.version "notes" = 3 ∧ t.version "tags" = s.version "tags" ∧
        t.call Schema.runScript repairedCall = (none, t) := by
  have hconsistent : Consistent (brokenCalls ++ [repairedCall]) := ⟨by decide, by decide, by decide⟩
  obtain ⟨_, _, _, _, _, _, _, hok, hother⟩ := after_calls Schema.runScript [] hconsistent
  exact ⟨hconsistent, rfl, (hok rfl).1, hother "tags" (by decide), (hok rfl).2⟩

end Layout

end DocIndex
