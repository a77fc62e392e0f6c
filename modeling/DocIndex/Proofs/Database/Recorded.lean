import DocIndex.Proofs.Database.Orderly

/-! # Recorded definitions

What is recorded of an index changes only in its checkpoint, its layout and the types that were not known before, as
long as the index is not deleted. So a definition agrees with the requests that it agreed with when it was declared,
whatever was done to the index in the meantime, and these find their index there and change nothing.
-/

namespace DocIndex

namespace Definition

variable {d later last : Definition} {s : IndexSpec}

/-- A definition as it is found later: types may be known that were not known before. -/
structure Continues (d later : Definition) : Prop where
  name_eq : later.name = d.name
  kind_eq : later.kind = d.kind
  settings_eq : later.settings = d.settings
  refines : Index.Refines d.fields later.fields

theorem Continues.refl (d : Definition) : d.Continues d := ⟨rfl, rfl, rfl, .refl _⟩

theorem Continues.trans (h : d.Continues later) (h' : later.Continues last) : d.Continues last :=
  ⟨h'.name_eq.trans h.name_eq, h'.kind_eq.trans h.kind_eq, h'.settings_eq.trans h.settings_eq,
    h.refines.trans h'.refines⟩

/-- A definition as it is found later: it may differ in its checkpoint and its layout. -/
structure Retains (d later : Definition) : Prop where
  name_eq : later.name = d.name
  kind_eq : later.kind = d.kind
  fields_eq : later.fields = d.fields
  settings_eq : later.settings = d.settings

theorem Retains.refl (d : Definition) : d.Retains d := ⟨rfl, rfl, rfl, rfl⟩

theorem Retains.trans (h : d.Retains later) (h' : later.Retains last) : d.Retains last :=
  ⟨h'.name_eq.trans h.name_eq, h'.kind_eq.trans h.kind_eq, h'.fields_eq.trans h.fields_eq,
    h'.settings_eq.trans h.settings_eq⟩

theorem Retains.continues (h : d.Retains later) : d.Continues later :=
  ⟨h.name_eq, h.kind_eq, h.settings_eq, by rw [h.fields_eq]; exact .refl _⟩

/-- A definition agrees with a request that has the same kind, the same settings and the same paths in the same order,
and declares no type but those that are recorded. -/
structure Agrees (d : Definition) (s : IndexSpec) : Prop where
  kind_eq : d.kind = s.kind
  settings_eq : d.settings = s.settings
  refines : Index.Refines s.fields d.fields

theorem Agrees.of_continues (h : d.Agrees s) (hc : d.Continues later) : later.Agrees s :=
  ⟨hc.kind_eq.trans h.kind_eq, hc.settings_eq.trans h.settings_eq, h.refines.trans hc.refines⟩

theorem fields_match_iff (stored fields : List IndexField) :
    (stored.length == fields.length && (stored.zip fields).all fun (stored, requested) =>
      stored.path == requested.path && (requested.type?.isNone || requested.type? == stored.type?)) = true ↔
    Index.Refines fields stored := by
  unfold Index.Refines
  induction fields generalizing stored with
  | nil => cases stored <;> simp
  | cons f rest ih =>
    cases stored with
    | nil => simp
    | cons g more =>
      have hfield : (g.path == f.path && (f.type?.isNone || f.type? == g.type?)) = true ↔
          g.path = f.path ∧ (f.type?.isSome → g.type? = f.type?) := by
        rw [Bool.and_eq_true, Bool.or_eq_true, beq_iff_eq, beq_iff_eq]
        cases htype : f.type? <;> simp [eq_comm]
      rw [List.forall₂_cons, ← hfield, ← ih]
      simp only [List.length_cons, List.zip_cons_cons, List.all_cons, Bool.and_eq_true, beq_iff_eq,
        Nat.add_right_cancel_iff]
      exact and_left_comm

theorem matches_iff_agrees : d.matches s = true ↔ d.Agrees s := by
  have hfields := fields_match_iff d.fields s.fields
  unfold Definition.matches
  rw [Bool.and_assoc, Bool.and_eq_true, hfields, Bool.and_eq_true, beq_iff_eq, beq_iff_eq]
  exact ⟨fun h => ⟨h.1.1, h.1.2, h.2⟩, fun h => ⟨⟨h.kind_eq, h.settings_eq⟩, h.refines⟩⟩

end Definition

theorem Content.continues_apply (x : Content) (p : Page) : x.definition.Continues (x.apply p).definition := by
  have hbare := Content.bare_apply x p
  have hname : (x.apply p).definition.bare.name = x.definition.bare.name := congrArg Definition.name hbare
  have hkind : (x.apply p).definition.bare.kind = x.definition.bare.kind := congrArg Definition.kind hbare
  have hsettings : (x.apply p).definition.bare.settings = x.definition.bare.settings :=
    congrArg Definition.settings hbare
  exact ⟨hname, hkind, hsettings, Content.refines_absorbAll x p.changes⟩

namespace Database

variable {db next : Database} {d later : Definition} {s : IndexSpec} {name : String}

/-- A request for an index that is recorded changes nothing: it is granted if the definition agrees with it and
refused if not. -/
theorem ensure_recorded (h : db.definition? s.name = .ok (some d)) (start : Int) :
    (d.Agrees s → db.ensure s start = .ok db) ∧
      (¬ d.Agrees s → db.ensure s start = .error (.indexConflict (.differentDefinition s.name))) := by
  have hensure : db.ensure s start =
      if d.matches s then .ok db else .error (.indexConflict (.differentDefinition s.name)) := by
    unfold definition? Catalog.definition? at h
    obtain ⟨ds, hds, h⟩ := ok_of_bind h
    have hdefinitions : db.definitions = .ok ds := hds
    have hfind : ds.find? (·.name == s.name) = some d := Except.ok.inj h
    simp only [Database.ensure, hdefinitions, bind, Except.bind, hfind]
  rw [hensure, ← Definition.matches_iff_agrees]
  exact ⟨fun hagrees => if_pos hagrees, fun hagrees => if_neg hagrees⟩

/-- What is recorded of an index now is related to what was recorded then. -/
def Has (db : Database) (R : Definition → Definition → Prop) (d : Definition) : Prop :=
  ∃ later, db.definition? d.name = .ok (some later) ∧ R d later

variable {R : Definition → Definition → Prop} {xs : List Content} {x y z : Content} {start : Int}

theorem Has.mono {R' : Definition → Definition → Prop} (h : db.Has R d) (hr : ∀ later, R d later → R' d later) :
    db.Has R' d := by
  obtain ⟨later, hlater, hrelated⟩ := h
  exact ⟨later, hlater, hr later hrelated⟩

theorem Holds.has (h : db.Holds xs) (hx : x ∈ xs) (hname : x.name = d.name) (hr : R d x.definition) : db.Has R d := by
  refine ⟨x.definition, ?_, hr⟩
  rw [← hname]
  exact h.definition? hx

theorem Has.of_retains (hd : d.Retains later) (h : db.Has Definition.Retains later) :
    db.Has Definition.Retains d := by
  obtain ⟨last, hlast, hretains⟩ := h
  rw [hd.name_eq] at hlast
  exact ⟨last, hlast, hd.trans hretains⟩

theorem Holds.has_put (h : next.Holds (Content.put y xs)) (hrefl : ∀ d, R d d) (hn : (xs.map Content.name).Nodup)
    (hx : x ∈ xs) (hname : x.name = y.name) (hy : R x.definition y.definition) (hz : z ∈ xs) :
    next.Has R z.definition := by
  by_cases hzy : z.name = y.name
  · obtain rfl := Content.eq_of_name_eq hn hx hz (hname.trans hzy.symm)
    exact h.has (Content.mem_put_self hx hname) hname.symm hy
  · exact h.has (Content.mem_put.mpr (Or.inl ⟨hz, hzy⟩)) rfl (hrefl _)

theorem Holds.has_applyBatch (h : db.Holds xs) (hrefl : ∀ d, R d d) (hx : x ∈ xs) {since : Int} {page : Page}
    (hr : name = x.name → R x.definition (x.apply page).definition)
    (hok : db.applyBatch name since page.changes page.checkpoint = .ok (.applied next)) :
    next.Has R x.definition := by
  obtain ⟨outcome, houtcome, happlied⟩ := h.applyBatch_cases name since page
  rw [houtcome] at hok
  obtain ⟨y, hy, hname, _, hholds⟩ := happlied next (Except.ok.inj hok)
  have happly : (y.apply page).name = y.name := Content.apply_name y page
  by_cases hyx : y.name = x.name
  · obtain rfl := Content.eq_of_name_eq h.distinct hy hx hyx
    exact hholds.has_put hrefl h.distinct hy happly.symm (hr hname.symm) hy
  · refine hholds.has (Content.mem_put.mpr (Or.inl ⟨hx, ?_⟩)) rfl (hrefl _)
    rw [happly]
    exact Ne.symm hyx

/-! ## Changes that leave types alone -/

theorem Holds.retains_ensure (h : db.Holds xs) (hx : x ∈ xs) (hs : s.Accepted) (hok : db.ensure s start = .ok next) :
    next.Has Definition.Retains x.definition := by
  have hvalid := IndexSpec.definition_valid hs.validate_eq hs.ascending hs.tokenizer start
  rcases h.ensure hvalid hok with ⟨rfl, _⟩ | hadded
  · exact h.has hx rfl (.refl _)
  · exact hadded.holds.has (List.mem_append_left _ hx) rfl (.refl _)

theorem Holds.retains_deleteIndex (h : db.Holds xs) (hx : x ∈ xs) (hother : name ≠ x.name)
    (hok : db.deleteIndex name = .ok next) : next.Has Definition.Retains x.definition := by
  refine (h.deleteIndex hok).holds.has (List.mem_filter.mpr ⟨hx, ?_⟩) rfl (.refl _)
  exact bne_iff_ne.mpr hother.symm

theorem Holds.retains_openDatabase (h : db.Holds xs) (hx : x ∈ xs) {settings : ConnectionSettings} {file : FileState}
    {key? : Option EncryptionKey} (hok : Manager.openDatabase settings file key? db = .ok next) :
    next.Has Definition.Retains x.definition := by
  have hthere := List.mem_map_of_mem
    (f := fun x : Content => if x.definition.schemaVersion < currentLayout then x.rebuilt else x) hx
  refine (h.openDatabase hok).has hthere ?_ ?_ <;> split
  · rfl
  · rfl
  · exact ⟨rfl, rfl, rfl, rfl⟩
  · exact .refl _

theorem Holds.retains_setSchemaVersion (h : db.Holds xs) (hx : x ∈ xs) {version : Int}
    (hok : db.overwriteCatalog name .schemaVersion (.int version) = .ok next) :
    next.Has Definition.Retains x.definition := by
  by_cases hname : ∃ y ∈ xs, y.name = name
  · obtain ⟨y, hy, rfl⟩ := hname
    have hretains : y.definition.Retains { y.definition with schemaVersion := version } := ⟨rfl, rfl, rfl, rfl⟩
    exact (h.setSchemaVersion hy version hok).has_put Definition.Retains.refl h.distinct hy rfl hretains hx
  · rw [h.setSchemaVersion_of_ne (fun y hy hy' => hname ⟨y, hy, hy'⟩) version hok]
    exact h.has hx rfl (.refl _)

/-! ## An index that is recorded -/

/-- An orderly database that has an index under the name of a definition, as the definition was or as it is later. -/
structure Records (db : Database) (d : Definition) : Prop where
  orderly : db.Orderly
  recorded : ∃ later, db.definition? d.name = .ok (some later) ∧ d.Continues later

theorem Orderly.records_ensure (h : db.Orderly) (hs : s.Accepted) {start : Int} (hok : db.ensure s start = .ok next) :
    ∃ d, d.name = s.name ∧ d.Agrees s ∧ next.Records d := by
  obtain ⟨xs, hholds, ht⟩ := h
  have horderly := Orderly.ensure ⟨xs, hholds, ht⟩ hs hok
  have hvalid := IndexSpec.definition_valid hs.validate_eq hs.ascending hs.tokenizer start
  rcases hholds.ensure hvalid hok with ⟨rfl, x, hx, hname⟩ | hadded
  · have hd := hholds.definition? hx
    refine ⟨x.definition, hname, ?_, horderly, x.definition, hd, .refl _⟩
    by_contra hagrees
    rw [hname] at hd
    rw [(ensure_recorded hd start).2 hagrees] at hok
    cases hok
  · have hd := hadded.holds.definition? (List.mem_append_right xs (List.mem_singleton_self _))
    exact ⟨s.definition start, rfl, ⟨rfl, rfl, .refl _⟩, horderly, s.definition start, hd, .refl _⟩

namespace Records

theorem of_has (h : db.Records d) (hnext : next.Orderly)
    (hhas : ∀ xs, db.Holds xs → ∀ x ∈ xs, x.name = d.name → next.Has Definition.Continues x.definition) :
    next.Records d := by
  obtain ⟨xs, hholds, _⟩ := h.orderly
  obtain ⟨now, hnow, hcontinues⟩ := h.recorded
  obtain ⟨x, hx, hname, rfl⟩ := hholds.exists_content hnow
  obtain ⟨later, hlater, hcontinues'⟩ := hhas xs hholds x hx hname
  refine ⟨hnext, later, ?_, hcontinues.trans hcontinues'⟩
  rw [← hcontinues.name_eq]
  exact hlater

theorem ensure (h : db.Records d) (hs : s.Accepted) (hok : db.ensure s start = .ok next) : next.Records d :=
  h.of_has (h.orderly.ensure hs hok) fun _ hxs _ hx _ =>
    (hxs.retains_ensure hx hs hok).mono fun _ hr => hr.continues

theorem deleteIndex (h : db.Records d) (hother : name ≠ d.name) (hok : db.deleteIndex name = .ok next) :
    next.Records d :=
  h.of_has (h.orderly.deleteIndex hok) fun _ hxs _ hx hname =>
    (hxs.retains_deleteIndex hx (by rwa [hname]) hok).mono fun _ hr => hr.continues

theorem openDatabase (h : db.Records d) {settings : ConnectionSettings} {file : FileState}
    {key? : Option EncryptionKey} (hok : Manager.openDatabase settings file key? db = .ok next) : next.Records d :=
  h.of_has (h.orderly.openDatabase hok) fun _ hxs _ hx _ =>
    (hxs.retains_openDatabase hx hok).mono fun _ hr => hr.continues

theorem setSchemaVersion (h : db.Records d) {version : Int}
    (hok : db.overwriteCatalog name .schemaVersion (.int version) = .ok next) : next.Records d :=
  h.of_has (h.orderly.setSchemaVersion hok) fun _ hxs _ hx _ =>
    (hxs.retains_setSchemaVersion hx hok).mono fun _ hr => hr.continues

theorem applyBatch (h : db.Records d) {since : Int} {page : Page}
    (hok : db.applyBatch name since page.changes page.checkpoint = .ok (.applied next)) : next.Records d := by
  refine h.of_has (h.orderly.applyBatch hok) fun xs hxs x hx _ => ?_
  exact hxs.has_applyBatch Definition.Continues.refl hx (fun _ => Content.continues_apply x page) hok

/-- Whatever is done to a database leaves an index recorded that is not deleted. -/
theorem kept (d : Definition) : Kept (·.Records d) (· ≠ d.name) where
  ensure h hs hok := h.ensure hs hok
  deleteIndex hother h hok := h.deleteIndex hother hok
  openDatabase h hok := h.openDatabase hok
  setSchemaVersion h hok := h.setSchemaVersion hok
  applyBatch h hok := h.applyBatch hok

end Records

end Database

end DocIndex
