import DocIndex.Proofs.Index.Types
import DocIndex.Proofs.Maintenance.Calls
import DocIndex.Proofs.Maintenance.Consistency
import Mathlib.Data.List.Induction

/-! # What indexes have read

An index reads the feed in batches, each of which goes on where the one before it ended, and reads it anew when it is
rebuilt. The types of its fields stand from then on: they are the declared ones, and those of the values that were read
first.
-/

namespace DocIndex

namespace World

def committed (w : World) (index : String) : Event → List Revision
  | .advance n =>
    match w.updaters n with
    | some u => if u.index = index then u.committed w.database else []
    | none => []
  | _ => []

def rebuilds (w : World) (index : String) : Event → Bool
  | .reopen settings file key? =>
    (Manager.openDatabase settings file key? w.database).toBool && w.outdated.contains index
  | _ => false

/-- What an index reads in a run, from its checkpoint on and once more from the beginning for each rebuild. -/
def passes (w : World) (index : String) : List Event → List (List Revision)
  | [] => [[]]
  | e :: rest =>
    if w.rebuilds index e then [] :: (w.step e).passes index rest
    else ((w.step e).passes index rest).modifyHead (w.committed index e ++ ·)

theorem exists_passes_eq_cons (w : World) (index : String) (events : List Event) :
    ∃ pass rest, w.passes index events = pass :: rest := by
  induction events generalizing w with
  | nil => exact ⟨[], [], rfl⟩
  | cons e rest ih =>
    obtain ⟨pass, more, hpasses⟩ := ih (w.step e)
    unfold passes
    split
    · exact ⟨_, _, rfl⟩
    · rw [hpasses]
      exact ⟨_, _, rfl⟩

/-! ## One event -/

/-- An event carries an index on: what it commits fixes types, comes in the order of the feed, and lies between the
checkpoints before and after. -/
structure Carries (w : World) (e : Event) (d later : Definition) : Prop where
  name_eq : later.name = d.name
  kind_eq : later.kind = d.kind
  fields_eq : d.kind = .value → later.fields = d.fields.map (·.after (w.committed d.name e))
  ascending : (w.committed d.name e).Pairwise (·.sequence < ·.sequence)
  between : ∀ r ∈ w.committed d.name e, d.lastSequence < r.sequence ∧ r.sequence ≤ later.lastSequence
  checkpoint_le : w.rebuilds d.name e = false → d.lastSequence ≤ later.lastSequence

variable {w : World} {e : Event} {d later : Definition} {xs ys : List Content} {x y : Content}

theorem Carries.of_idle (hidle : w.committed d.name e = []) (hn : later.name = d.name) (hk : later.kind = d.kind)
    (hf : later.fields = d.fields) (hle : w.rebuilds d.name e = false → d.lastSequence ≤ later.lastSequence) :
    w.Carries e d later := by
  refine ⟨hn, hk, fun _ => ?_, ?_, ?_, hle⟩
  · rw [hidle, hf]
    simp
  · rw [hidle]
    exact List.Pairwise.nil
  · rw [hidle]
    simp

theorem Carries.refl (hidle : w.committed d.name e = []) : w.Carries e d d :=
  .of_idle hidle rfl rfl rfl fun _ => Int.le_refl _

theorem Carries.of_apply {page : Page} (hcommitted : w.committed x.name e = page.changes)
    (hcovers : page.Covers w.store x.definition.lastSequence) :
    w.Carries e x.definition (x.apply page).definition := by
  have hcommitted : w.committed x.definition.name e = page.changes := hcommitted
  refine ⟨Content.apply_name x page, Content.absorbAll_kind x page.changes, fun hk => ?_, ?_, ?_, fun _ => ?_⟩
  · rw [hcommitted]
    exact Content.absorbAll_fields hk page.changes
  · rw [hcommitted]
    exact hcovers.ascending
  · rw [hcommitted]
    exact hcovers.between
  · exact Int.le_of_lt hcovers.since_lt

def Makes (e : Event) (d : Definition) : Prop :=
  ∃ spec tokenizer start, e = .ensure spec tokenizer start ∧
    d = (spec.withDefaultTokenizer tokenizer).definition start

/-- How contents come out of an event: those that it does not delete are carried on, and any other is new. -/
structure Continues (w : World) (e : Event) (xs ys : List Content) : Prop where
  carried : ∀ x ∈ xs, e ≠ .deleteIndex x.name → ∃ y ∈ ys, w.Carries e x.definition y.definition
  origin : ∀ y ∈ ys, (∃ x ∈ xs, x.name = y.name ∧ e ≠ .deleteIndex y.name) ∨
    (∀ x ∈ xs, x.name ≠ y.name) ∧ Makes e y.definition

namespace Continues

theorem refl (hidle : ∀ index, w.committed index e = []) (hkeep : ∀ x ∈ xs, e ≠ .deleteIndex x.name) :
    w.Continues e xs xs where
  carried x hx _ := ⟨x, hx, .refl (hidle _)⟩
  origin x hx := Or.inl ⟨x, hx, rfl, hkeep x hx⟩

theorem put (hx : x ∈ xs) (hcarries : w.Carries e x.definition y.definition)
    (hidle : ∀ index, index ≠ x.name → w.committed index e = []) (hkeep : ∀ index, e ≠ .deleteIndex index)
    (hn : (xs.map Content.name).Nodup) : w.Continues e xs (Content.put y xs) := by
  have hname : x.name = y.name := hcarries.name_eq.symm
  refine ⟨fun z hz _ => ?_, fun z hz => Or.inl ?_⟩
  · by_cases hzx : z.name = x.name
    · obtain rfl := Content.eq_of_name_eq hn hz hx hzx
      exact ⟨y, Content.mem_put_self hx hname, hcarries⟩
    · refine ⟨z, Content.mem_put.mpr (Or.inl ⟨hz, ?_⟩), .refl (hidle _ hzx)⟩
      rw [← hname]
      exact hzx
  · rcases Content.mem_put.mp hz with ⟨hz, _⟩ | ⟨rfl, _⟩
    · exact ⟨z, hz, rfl, hkeep _⟩
    · exact ⟨x, hx, hname, hkeep _⟩

end Continues

namespace Sound

theorem continues_ensure (h : w.Sound xs) (spec : IndexSpec) (tokenizer : String) (start : Int) :
    ∃ ys, (w.step (.ensure spec tokenizer start)).database.Holds ys ∧
      w.Continues (.ensure spec tokenizer start) xs ys := by
  have hstay : w.Continues (.ensure spec tokenizer start) xs xs := .refl (fun _ => rfl) fun _ _ => nofun
  simp only [World.step]
  rcases w.ensure_cases (spec.withDefaultTokenizer tokenizer) start with
    hsame | ⟨database, hvalidate, hsettings, _, hok, heq⟩
  · rw [hsame]
    exact ⟨xs, h.holds, hstay⟩
  rw [heq]
  have ht := IndexSpec.withDefaultTokenizer_get? spec tokenizer
  rcases h.holds.ensure (IndexSpec.definition_valid hvalidate hsettings ht start) hok with
    ⟨rfl, _⟩ | ⟨hnew, _, _, hholds⟩
  · exact ⟨xs, h.holds, hstay⟩
  · refine ⟨_, hholds, fun x hx _ => ⟨x, List.mem_append_left _ hx, .refl rfl⟩, fun y hy => ?_⟩
    rcases List.mem_append.mp hy with hy | hy
    · exact hstay.origin y hy
    · rw [List.mem_singleton.mp hy]
      exact Or.inr ⟨hnew, spec, tokenizer, start, rfl, rfl⟩

theorem continues_deleteIndex (h : w.Sound xs) (name : String) :
    ∃ ys, (w.step (.deleteIndex name)).database.Holds ys ∧ w.Continues (.deleteIndex name) xs ys := by
  simp only [World.step]
  cases hok : w.database.deleteIndex name with
  | error e =>
    refine ⟨xs, h.holds, .refl (fun _ => rfl) ?_⟩
    rintro x hx heq
    obtain ⟨next, hnext⟩ := h.holds.exists_deleteIndex hx
    rw [← Event.deleteIndex.inj heq, hok] at hnext
    cases hnext
  | ok database =>
    refine ⟨_, (h.holds.deleteIndex hok).holds, fun x hx hne => ⟨x, ?_, .refl rfl⟩, fun y hy => Or.inl ?_⟩
    · refine List.mem_filter.mpr ⟨hx, bne_iff_ne.mpr ?_⟩
      rintro rfl
      exact hne rfl
    · obtain ⟨hy, hne⟩ := List.mem_filter.mp hy
      refine ⟨y, hy, rfl, fun heq => ?_⟩
      exact bne_iff_ne.mp hne (Event.deleteIndex.inj heq).symm

theorem continues_setLayout (h : w.Sound xs) (index : String) (version : Int) :
    ∃ ys, (w.step (.setLayout index version)).database.Holds ys ∧ w.Continues (.setLayout index version) xs ys := by
  have hkeep : ∀ name, Event.setLayout index version ≠ .deleteIndex name := nofun
  have hstay : w.Continues (.setLayout index version) xs xs := .refl (fun _ => rfl) fun _ _ => hkeep _
  simp only [World.step]
  cases hok : w.database.overwriteCatalog index .schemaVersion (.int version) with
  | error e => exact ⟨xs, h.holds, hstay⟩
  | ok database =>
    rcases exists_name_or xs index with ⟨x, hx, rfl⟩ | hnone
    · have hcarries : w.Carries (.setLayout x.name version) x.definition
          { x.definition with schemaVersion := version } :=
        .of_idle rfl rfl rfl rfl fun _ => Int.le_refl _
      exact ⟨_, h.holds.setSchemaVersion hx version hok,
        .put hx hcarries (fun _ _ => rfl) hkeep h.holds.distinct⟩
    · rw [h.holds.setSchemaVersion_of_ne hnone version hok]
      exact ⟨xs, h.holds, hstay⟩

theorem continues_reopen (h : w.Sound xs) (settings : ConnectionSettings) (file : FileState)
    (key? : Option EncryptionKey) :
    ∃ ys, (w.step (.reopen settings file key?)).database.Holds ys ∧
      w.Continues (.reopen settings file key?) xs ys := by
  have hkeep : ∀ name, Event.reopen settings file key? ≠ .deleteIndex name := nofun
  have hstay : w.Continues (.reopen settings file key?) xs xs := .refl (fun _ => rfl) fun _ _ => hkeep _
  simp only [World.step, World.reopen]
  cases hok : Manager.openDatabase settings file key? w.database with
  | error e => exact ⟨xs, h.holds, hstay⟩
  | ok database =>
    refine ⟨_, h.holds.openDatabase hok, fun x hx _ => ⟨_, List.mem_map_of_mem hx, ?_⟩, fun y hy => Or.inl ?_⟩
    · by_cases hold : x.definition.schemaVersion < currentLayout
      · have hrebuilds : w.rebuilds x.definition.name (.reopen settings file key?) = true := by
          simp only [rebuilds, hok, Except.toBool, Bool.true_and, List.contains_iff_mem]
          exact (h.mem_outdated_iff hx).mpr hold
        rw [if_pos hold]
        refine .of_idle rfl rfl rfl rfl fun hnot => ?_
        rw [hrebuilds] at hnot
        cases hnot
      · rw [if_neg hold]
        exact .refl rfl
    · obtain ⟨x, hx, rfl⟩ := List.mem_map.mp hy
      refine ⟨x, hx, ?_, hkeep _⟩
      split <;> rfl

theorem continues_advance (h : w.Sound xs) (n : Nat) :
    ∃ ys, (w.step (.advance n)).database.Holds ys ∧ w.Continues (.advance n) xs ys := by
  have hkeep : ∀ name, Event.advance n ≠ .deleteIndex name := nofun
  simp only [World.step, World.advance]
  cases hu : w.updaters n with
  | none => exact ⟨xs, h.holds, .refl (fun index => by simp only [committed, hu]) fun _ _ => hkeep _⟩
  | some u =>
    have hcommitted : ∀ index, w.committed index (.advance n) =
        if u.index = index then u.committed w.database else [] := by
      intro index
      simp only [committed, hu]
    dsimp only
    rcases u.step_cases w.store w.database with
      ⟨hsame, hnothing⟩ | ⟨target, since, page, next, hphase, hbatch, hnext, hchanges⟩
    · rw [hsame]
      refine ⟨xs, h.holds, .refl (fun index => ?_) fun _ _ => hkeep _⟩
      rw [hcommitted, hnothing, ite_self]
    · have hfits := h.updaters n u hu
      rw [hphase] at hfits
      obtain ⟨_, houtcome, happlied⟩ := h.holds.applyBatch_cases u.index since page
      rw [hbatch] at houtcome
      obtain ⟨x, hx, hname, rfl, hholds⟩ := happlied next (Except.ok.inj houtcome).symm
      rw [hnext]
      refine ⟨_, hholds, .put hx (.of_apply ?_ hfits.2.1) (fun other hne => ?_) hkeep h.holds.distinct⟩
      · rw [hcommitted, hname, if_pos rfl, hchanges]
      · rw [hcommitted, if_neg fun heq => hne (heq.symm.trans hname.symm)]

/-- Every event carries on all indexes that it does not delete, and makes those that were not there. -/
theorem continues (h : w.Sound xs) (e : Event) : ∃ ys, (w.step e).database.Holds ys ∧ w.Continues e xs ys := by
  have hstay : ∀ v : World, v.database = w.database → (∀ index, w.committed index e = []) →
      (∀ index, e ≠ .deleteIndex index) → ∃ ys, v.database.Holds ys ∧ w.Continues e xs ys := by
    intro v hsame hidle hkeep
    rw [hsame]
    exact ⟨xs, h.holds, .refl hidle fun _ _ => hkeep _⟩
  cases e with
  | create docId body => exact hstay _ (step_write_database trivial) (fun _ => rfl) fun _ => nofun
  | update docId revId body => exact hstay _ (step_write_database trivial) (fun _ => rfl) fun _ => nofun
  | delete docId revId => exact hstay _ (step_write_database trivial) (fun _ => rfl) fun _ => nofun
  | purge docId => exact hstay _ (step_write_database trivial) (fun _ => rfl) fun _ => nofun
  | ensure spec tokenizer start => exact h.continues_ensure spec tokenizer start
  | deleteIndex name => exact h.continues_deleteIndex name
  | setLayout index version => exact h.continues_setLayout index version
  | reopen settings file key? => exact h.continues_reopen settings file key?
  | startUpdate n index batchSize patience => exact hstay _ rfl (fun _ => rfl) fun _ => nofun
  | advance n => exact h.continues_advance n
  | fail n =>
    refine hstay _ ?_ (fun _ => rfl) fun _ => nofun
    simp only [World.step]
    split <;> rfl

theorem step_continues (h : w.Sound xs) (e : Event) : ∃ ys, (w.step e).Sound ys ∧ w.Continues e xs ys := by
  obtain ⟨ys, hsound, _⟩ := h.step e
  obtain ⟨zs, hholds, hcontinues⟩ := h.continues e
  refine ⟨ys, hsound, fun x hx hne => ?_, fun y hy => ?_⟩
  · obtain ⟨z, hz, hcarries⟩ := hcontinues.carried x hx hne
    obtain ⟨y, hy, _, hdefinition⟩ := hsound.holds.exists_content (hholds.definition? hz)
    exact ⟨y, hy, by rw [hdefinition]; exact hcarries⟩
  · obtain ⟨z, hz, hname, hdefinition⟩ := hholds.exists_content (hsound.holds.definition? hy)
    rw [← hname, ← hdefinition]
    exact hcontinues.origin z hz

end Sound

/-! ## A run -/

theorem committed_of_rebuilds {index : String} (h : w.rebuilds index e = true) : w.committed index e = [] := by
  cases e with
  | advance n => cases h
  | _ => rfl

/-- A run reads the feed for an index: pass by pass, each in the order of the feed and the first from the checkpoint on.
What it reads fixes types. -/
structure Reads (w : World) (events : List Event) (d later : Definition) : Prop where
  name_eq : later.name = d.name
  kind_eq : later.kind = d.kind
  fields_eq : d.kind = .value → later.fields = d.fields.map (·.after (w.passes d.name events).flatten)
  ascending : ∀ pass ∈ w.passes d.name events, pass.Pairwise (·.sequence < ·.sequence)
  beyond : ∀ pass rest, w.passes d.name events = pass :: rest → ∀ r ∈ pass, d.lastSequence < r.sequence

namespace Reads

variable {events rest : List Event} {mid : Definition}

theorem nil (w : World) (d : Definition) : w.Reads [] d d where
  name_eq := rfl
  kind_eq := rfl
  fields_eq _ := by simp [passes]
  ascending pass hpass := by
    rw [List.mem_singleton.mp hpass]
    exact List.Pairwise.nil
  beyond pass rest hpasses r hr := by
    cases hpasses
    cases hr

theorem cons (hcarries : w.Carries e d mid) (h : (w.step e).Reads rest mid later) : w.Reads (e :: rest) d later := by
  obtain ⟨pass, more, hpasses⟩ := (w.step e).exists_passes_eq_cons mid.name rest
  have hfields := h.fields_eq
  have hascending := h.ascending
  have hbeyond := h.beyond pass more hpasses
  rw [hpasses] at hfields hascending
  rw [hcarries.name_eq] at hpasses
  rw [hcarries.kind_eq] at hfields
  cases hrebuilds : w.rebuilds d.name e with
  | true =>
    have hcons : w.passes d.name (e :: rest) = [] :: pass :: more := by
      rw [passes, if_pos hrebuilds, hpasses]
    refine ⟨h.name_eq.trans hcarries.name_eq, h.kind_eq.trans hcarries.kind_eq, fun hk => ?_, ?_, ?_⟩
    · rw [hfields hk, hcarries.fields_eq hk, committed_of_rebuilds hrebuilds, hcons]
      simp
    · rw [hcons]
      exact List.forall_mem_cons.mpr ⟨List.Pairwise.nil, hascending⟩
    · intro first others hfirst r hr
      rw [hcons] at hfirst
      rw [← (List.cons.inj hfirst).1] at hr
      cases hr
  | false =>
    have hcons : w.passes d.name (e :: rest) = (w.committed d.name e ++ pass) :: more := by
      rw [passes, hrebuilds, hpasses]
      rfl
    have hle := hcarries.checkpoint_le hrebuilds
    refine ⟨h.name_eq.trans hcarries.name_eq, h.kind_eq.trans hcarries.kind_eq, fun hk => ?_, ?_, ?_⟩
    · rw [hfields hk, hcarries.fields_eq hk, hcons, List.map_map, List.flatten_cons, List.flatten_cons,
        List.append_assoc]
      exact List.map_congr_left fun f _ => (IndexField.after_append _ _ f).symm
    · rw [hcons]
      obtain ⟨hpass, hmore⟩ := List.forall_mem_cons.mp hascending
      refine List.forall_mem_cons.mpr ⟨List.pairwise_append.mpr ⟨hcarries.ascending, hpass, ?_⟩, hmore⟩
      intro r hr q hq
      have := (hcarries.between r hr).2
      have := hbeyond q hq
      omega
    · intro first others hfirst r hr
      rw [hcons] at hfirst
      rw [← (List.cons.inj hfirst).1] at hr
      rcases List.mem_append.mp hr with hr | hr
      · exact (hcarries.between r hr).1
      · have := hbeyond r hr
        omega

theorem refines (h : w.Reads events d later) (hk : d.kind = .value) : Index.Refines d.fields later.fields := by
  rw [h.fields_eq hk]
  exact IndexField.refines_after _ _

end Reads

theorem Sound.run_reads (h : w.Sound xs) (hx : x ∈ xs) {events : List Event}
    (hkeep : .deleteIndex x.name ∉ events) :
    ∃ ys, (w.run events).Sound ys ∧ ∃ y ∈ ys, w.Reads events x.definition y.definition := by
  induction events generalizing w xs x with
  | nil => exact ⟨xs, h, x, hx, .nil w x.definition⟩
  | cons e rest ih =>
    rw [List.mem_cons, not_or] at hkeep
    obtain ⟨ys, hsound, hcontinues⟩ := h.step_continues e
    obtain ⟨y, hy, hcarries⟩ := hcontinues.carried x hx fun heq => hkeep.1 heq.symm
    have hname : y.name = x.name := hcarries.name_eq
    obtain ⟨zs, hlast, z, hz, hreads⟩ := ih hsound hy (by rw [hname]; exact hkeep.2)
    exact ⟨zs, hlast, z, hz, .cons hcarries hreads⟩

/-! ## Where an index comes from -/

/-- A run falls into what was before an index was made, the request that made it, and what came after, without its
deletion. -/
structure Origin (events : List Event) (index : String) (before : List Event) (spec : IndexSpec) (tokenizer : String)
    (start : Int) (after : List Event) : Prop where
  events_eq : events = before ++ .ensure spec tokenizer start :: after
  absent : (run {} before).database.definition? index = .ok none
  made : (run {} (before ++ [.ensure spec tokenizer start])).database.definition? index =
    .ok (some ((spec.withDefaultTokenizer tokenizer).definition start))
  kept : .deleteIndex index ∉ after

theorem exists_origin {events : List Event} {index : String} {d : Definition}
    (h : (run {} events).database.definition? index = .ok (some d)) :
    ∃ before spec tokenizer start after, Origin events index before spec tokenizer start after := by
  induction events using List.reverseRecOn generalizing d with
  | nil =>
    have hnone : (run {} []).database.definition? index = .ok none := Database.Holds.empty.definition?_none (by simp)
    rw [hnone] at h
    cases h
  | append_singleton events e ih =>
    obtain ⟨xs, hsound⟩ := Sound.empty.run events
    obtain ⟨ys, hholds, hcontinues⟩ := hsound.continues e
    have hlast : run {} (events ++ [e]) = (run {} events).step e := run_append {} events [e]
    rw [hlast] at h
    obtain ⟨y, hy, rfl, rfl⟩ := hholds.exists_content h
    rcases hcontinues.origin y hy with ⟨x, hx, hname, hne⟩ | ⟨hnew, spec, tokenizer, start, rfl, hmade⟩
    · have hbefore := hsound.holds.definition? hx
      rw [hname] at hbefore
      obtain ⟨before, spec, tokenizer, start, after, ho⟩ := ih hbefore
      refine ⟨before, spec, tokenizer, start, after ++ [e], ?_, ho.absent, ho.made, ?_⟩
      · rw [ho.events_eq, List.append_assoc, List.cons_append]
      · rw [List.mem_append, not_or, List.mem_singleton]
        exact ⟨ho.kept, fun heq => hne heq.symm⟩
    · refine ⟨events, spec, tokenizer, start, [], rfl, hsound.holds.definition?_none hnew, ?_, List.not_mem_nil⟩
      rw [hlast, h, hmade]

theorem Origin.reads {events before after : List Event} {index tokenizer : String} {spec : IndexSpec} {start : Int}
    (ho : Origin events index before spec tokenizer start after)
    (hd : (run {} events).database.definition? index = .ok (some d)) :
    (run {} (before ++ [.ensure spec tokenizer start])).Reads after
      ((spec.withDefaultTokenizer tokenizer).definition start) d := by
  obtain ⟨xs, hsound⟩ := Sound.empty.run (before ++ [.ensure spec tokenizer start])
  obtain ⟨x, hx, rfl, hmade⟩ := hsound.holds.exists_content ho.made
  obtain ⟨ys, hlast, y, hy, hreads⟩ := hsound.run_reads hx ho.kept
  have hrun : run {} events = (run {} (before ++ [.ensure spec tokenizer start])).run after := by
    rw [← run_append, ho.events_eq, List.append_assoc, List.singleton_append]
  have hname : y.name = x.name := hreads.name_eq
  have hy := hlast.holds.definition? hy
  rw [← hrun, hname, hd] at hy
  rw [← hmade, Option.some.inj (Except.ok.inj hy)]
  exact hreads

/-! ## What the columns have -/

theorem Sound.admits (h : w.Sound xs) (hx : x ∈ xs) (hk : x.definition.kind = .value) :
    ∃ t, w.database.table? x.definition.tableName = .ok t ∧ ∀ f ∈ x.definition.fields, f.isBuiltin = false →
      ∃ column ∈ t.columns, x.definition.columnFor? f.path = some column ∧
        ∀ row ∈ t.rows, FieldType.Admits f.type? (t.cell row column) := by
  obtain ⟨t, _, hkeeps, htable⟩ := h.holds.table? hx
  have hvalid := h.holds.valid x hx
  refine ⟨t, htable, fun f hf hb => ?_⟩
  have hf : f ∈ x.definition.columnFields := List.mem_filter.mpr ⟨hf, by simp [hb]⟩
  obtain ⟨⟨column, hmem, hcolumn⟩, _⟩ := hvalid.columnFor? hf
  refine ⟨column, ?_, hcolumn, fun row hrow => ?_⟩
  · rw [hkeeps.columns_eq]
    exact List.mem_map_of_mem hmem
  · have hrow' : row ∈ x.rowsOf row.docId := by
      rw [Content.rowsOf, ← hkeeps.rows_eq]
      exact List.mem_filter.mpr ⟨hrow, beq_self_eq_true _⟩
    rcases (h.follows x hx).single row.docId with hnone | ⟨r, _, hid, hlive, _, hrep⟩
    · rw [hnone] at hrow'
      cases hrow'
    · have hadmits := (hrep.showsLive hvalid hk hkeeps hlive).admits hrow hid.symm hf
      rw [Table.cellAt, hcolumn] at hadmits
      exact hadmits

/-- In every run the columns of a value index have only cells that the types of its fields admit, and nulls. A type
that is recorded stands in every run that goes on from there without deleting the index. And the types are the ones
declared in the request that made the index, with those of the first values that were offered in what it has read
since: each time over the feed in the order of the feed, and a rebuild reads it anew. -/
theorem run_types (events : List Event) :
    ∃ definitions, (run {} events).database.definitions = .ok definitions ∧ ∀ d ∈ definitions, d.kind = .value →
      (∃ t, (run {} events).database.table? d.tableName = .ok t ∧ ∀ f ∈ d.fields, f.isBuiltin = false →
        ∃ column ∈ t.columns, d.columnFor? f.path = some column ∧
          ∀ row ∈ t.rows, FieldType.Admits f.type? (t.cell row column)) ∧
      (∀ more, .deleteIndex d.name ∉ more →
        ∃ later, (run {} (events ++ more)).database.definition? d.name = .ok (some later) ∧ later.kind = .value ∧
          Index.Refines d.fields later.fields) ∧
      ∃ before spec tokenizer start after, Origin events d.name before spec tokenizer start after ∧
        let passes := (run {} (before ++ [.ensure spec tokenizer start])).passes d.name after
        (∀ pass ∈ passes, pass.Pairwise (·.sequence < ·.sequence)) ∧
        List.Forall₂ (IndexField.Typed passes.flatten) spec.fields d.fields := by
  obtain ⟨xs, h⟩ := Sound.empty.run events
  refine ⟨_, h.holds.definitions, fun d hd hk => ?_⟩
  obtain ⟨x, hx, rfl⟩ := List.mem_map.mp ((Catalog.sorted_perm _).mem_iff.mp hd)
  have hdefinition := h.holds.definition? hx
  refine ⟨h.admits hx hk, fun more hmore => ?_, ?_⟩
  · obtain ⟨ys, hlast, y, hy, hreads⟩ := h.run_reads hx hmore
    have hy := hlast.holds.definition? hy
    rw [run_append]
    refine ⟨y.definition, ?_, hreads.kind_eq.trans hk, hreads.refines hk⟩
    rw [← hy]
    exact congrArg _ hreads.name_eq.symm
  · obtain ⟨before, spec, tokenizer, start, after, ho⟩ := exists_origin hdefinition
    have hreads := ho.reads hdefinition
    have hname : ((spec.withDefaultTokenizer tokenizer).definition start).name = x.name := hreads.name_eq.symm
    have hfields : ((spec.withDefaultTokenizer tokenizer).definition start).fields = spec.fields :=
      spec.withDefaultTokenizer_fields tokenizer
    have hlearned := hreads.fields_eq (hreads.kind_eq.symm.trans hk)
    have hascending := hreads.ascending
    rw [hname] at hlearned hascending
    refine ⟨before, spec, tokenizer, start, after, ho, hascending, ?_⟩
    rw [hlearned, hfields, List.forall₂_map_right_iff, List.forall₂_same]
    exact fun f _ => IndexField.typed_after _ f

/-- A request for an index without declared types. -/
def ages : IndexSpec := { name := "ages", fields := [{ path := "age" }] }

/-- A document that the index does not read at first, because it starts behind it. -/
def missed : List Event := [.create "ann" [("age", .string "forty")]]

/-- One that it reads, and then a rebuild, after which it reads both. -/
def rebuilt : List Event :=
  [.create "bob" [("age", .number (.int 40))], .startUpdate 0 "ages" 10 0, .advance 0, .advance 0, .advance 0,
    .setLayout "ages" 1, .reopen {} .absent none, .startUpdate 0 "ages" 10 0, .advance 0, .advance 0, .advance 0]

def reread : List Event := missed ++ .ensure ages "" 1 :: rebuilt

def agesReread : Definition :=
  { name := "ages", kind := .value, fields := [{ path := "age", type? := some .number }], lastSequence := 2 }

def readAges : List Revision := ((run {} (missed ++ [.ensure ages "" 1])).passes "ages" rebuilt).flatten

theorem run_types_reread :
    (run {} reread).database.definitions = .ok [agesReread] ∧ agesReread.kind = .value ∧
    (∃ t, (run {} reread).database.table? agesReread.tableName = .ok t ∧ ∀ f ∈ agesReread.fields,
      f.isBuiltin = false → ∃ column ∈ t.columns, agesReread.columnFor? f.path = some column ∧
        ∀ row ∈ t.rows, FieldType.Admits f.type? (t.cell row column)) ∧
    (∃ later, (run {} (reread ++ [.create "cal" [("age", .bool true)], .deleteIndex "names"])).database.definition?
      "ages" = .ok (some later) ∧ later.kind = .value ∧ Index.Refines agesReread.fields later.fields) ∧
    ∃ before spec tokenizer start after, Origin reread "ages" before spec tokenizer start after ∧
      List.Forall₂
        (IndexField.Typed ((run {} (before ++ [.ensure spec tokenizer start])).passes "ages" after).flatten)
        spec.fields agesReread.fields := by
  obtain ⟨definitions, hdefinitions, htypes⟩ := run_types reread
  have hlist : (run {} reread).database.definitions.toOption = some [agesReread] := by decide +kernel
  rw [hdefinitions] at hlist
  obtain rfl : definitions = [agesReread] := Option.some.inj hlist
  obtain ⟨htable, hstands, before, spec, tokenizer, start, after, horigin, _, htyped⟩ :=
    htypes agesReread (List.mem_singleton_self _) rfl
  refine ⟨hdefinitions, rfl, htable, hstands _ ?_, before, spec, tokenizer, start, after, horigin, htyped⟩
  simp [agesReread]

/-- The first value in the order of the feed does not decide the type, if it is read only after a rebuild: it is a
string, and the recorded type is that of the number which was read before. -/
theorem run_types_not_by_feed :
    Origin reread "ages" missed ages "" 1 rebuilt ∧ ages.fields = [{ path := "age" }] ∧
    (run {} reread).database.definition? "ages" = .ok (some agesReread) ∧
    agesReread.fields = [{ path := "age", type? := some .number }] ∧
    ∃ r ∈ readAges, (∀ q ∈ readAges, r.sequence ≤ q.sequence) ∧
      (r.offered "age").map FieldType.of? = [some .string] := by
  have hdefinition : ((run {} reread).database.definition? "ages").toOption = some (some agesReread) := by
    decide +kernel
  have hfirst : (readAges.find? (·.sequence == 1)).map (fun r => (r.offered "age").map FieldType.of?) =
      some [some .string] := by
    decide +kernel
  have hall : readAges.all (1 ≤ ·.sequence) = true := by decide +kernel
  obtain ⟨r, hr, hoffered⟩ := Option.map_eq_some_iff.mp hfirst
  have hsequence : r.sequence = 1 := by simpa using List.find?_some hr
  refine ⟨⟨rfl, ok_of_toOption (by decide +kernel), ok_of_toOption (by decide +kernel), by simp [rebuilt]⟩, rfl,
    ok_of_toOption hdefinition, rfl, r, List.mem_of_find?_eq_some hr, fun q hq => ?_, hoffered⟩
  rw [hsequence]
  simpa using List.all_eq_true.mp hall q hq

end World

end DocIndex
