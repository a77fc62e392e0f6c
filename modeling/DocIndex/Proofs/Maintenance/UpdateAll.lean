import DocIndex.Proofs.Index.Bare
import DocIndex.Proofs.Maintenance.CatchUp
import DocIndex.Proofs.Maintenance.Consistency

/-! # Bringing all indexes up to date

Where nobody else uses the store, an update of all indexes succeeds. It brings every checkpoint to the sequence
of the store and leaves the bare definitions as they are.
-/

namespace DocIndex

/-- A store that is as in a world, with a database whose contents follow it. -/
structure Local.Follows (w : World) (s : Local) (xs : List Content) : Prop where
  store_eq : s.store = w.store
  sound : World.Sound { w with database := s.database } xs

namespace Update

open DocIndex.Action

variable {w : World} {s : Local} {xs ys : List Content} {x y : Content} {index : String} {since : Int}

/-- An update of one index has come to a checkpoint, from given contents. -/
structure Reaches (w : World) (xs : List Content) (index : String) (checkpoint : Int) (s : Local)
    (ys : List Content) (y : Content) : Prop where
  follows : s.Follows w ys
  mem : y ∈ ys
  name_eq : y.name = index
  checkpoint_eq : y.definition.lastSequence = checkpoint
  bare_eq : ys.map (fun z => z.definition.bare) = xs.map fun z => z.definition.bare
  others : ∀ z ∈ ys, z.name ≠ index → z ∈ xs

theorem Reaches.advance (h : Reaches w xs index since s ys y) (hlt : since < w.store.sequence) (batchSize : Nat) :
    (Update.advance Local.host index (max batchSize 1) w.store.sequence since).After s
      (fun p t => ∃ checkpoint, p = .reached checkpoint ∧ since < checkpoint ∧
        ∃ zs z, Reaches w xs index checkpoint t zs z) fun _ _ => False := by
  let page := Page.cut w.store.sequence (max batchSize 1) (w.store.changesSince since (max batchSize 1))
  have hsound := h.follows.sound
  obtain ⟨_, hcovers, hchanges⟩ := hsound.fetch hlt (Int.le_refl _) batchSize
  obtain ⟨next, hnext, hholds, _⟩ := hsound.holds.applyBatch_applied h.mem page
  have hname : y.name = (y.apply page).name := (Content.apply_name y page).symm
  have hcovers' : page.Covers w.store y.definition.lastSequence := by
    rw [h.checkpoint_eq]
    exact hcovers
  rw [h.name_eq, h.checkpoint_eq] at hnext
  unfold Update.advance
  refine after_bind (after_ask ?_)
  unfold After applyPage
  simp only [Local.host, h.follows.store_eq]
  simp only [page] at hnext
  simp only [hnext]
  refine ⟨_, rfl, hcovers.since_lt, Content.put (y.apply page) ys, y.apply page, ?_⟩
  refine ⟨⟨rfl, hsound.applied h.mem hcovers' hchanges hholds⟩, Content.mem_put_self h.mem hname,
    hname.symm.trans h.name_eq, rfl, ?_, ?_⟩
  · rw [Content.map_put _ hsound.holds.distinct h.mem hname (Content.bare_apply y page), h.bare_eq]
  · intro z hz hne
    rcases Content.mem_put.mp hz with ⟨hz, _⟩ | ⟨rfl, _⟩
    · exact h.others z hz hne
    · exact absurd (hname.symm.trans h.name_eq) hne

theorem after_updateIndex_local (h : s.Follows w xs) (hx : x ∈ xs) (hname : x.name = index) (batchSize : Nat) :
    (Update.updateIndex Local.host batchSize index).After s
      (fun _ t => ∃ ys y, Reaches w xs index w.store.sequence t ys y) fun _ _ => False := by
  have hstart : ∃ ys y, Reaches w xs index x.definition.lastSequence s ys y :=
    ⟨xs, x, h, hx, hname, rfl, rfl, fun z hz _ => hz⟩
  have hstep : ∀ since t, (∃ ys y, Reaches w xs index since t ys y) → since < w.store.sequence →
      (Update.advance Local.host index (max batchSize 1) w.store.sequence since).After t
        (fun p u => ∃ checkpoint, p = .reached checkpoint ∧ since < checkpoint ∧
          ∃ ys y, Reaches w xs index checkpoint u ys y) fun _ _ => False := by
    rintro since t ⟨ys, y, hreach⟩ hlt
    exact hreach.advance hlt batchSize
  have hread := h.sound.holds.lastSequence? hx
  rw [hname] at hread
  unfold Update.updateIndex
  refine after_bind (after_ask ?_)
  simp only [Local.host, h.store_eq]
  refine after_bind (after_look (v := some x.definition.lastSequence) ?_ ?_)
  · simp only [hread]
    rfl
  · refine (after_settle hstep 0 hstart).mono ?_ fun _ _ he => he
    rintro _ t ⟨checkpoint, _, hle, ys, y, hreach⟩
    have hbound := (hreach.follows.sound.follows y hreach.mem).checkpoint_le
    rw [hreach.checkpoint_eq] at hbound
    obtain rfl : checkpoint = w.store.sequence := Int.le_antisymm hbound hle
    exact ⟨ys, y, hreach⟩

theorem after_updateEach (batchSize : Nat) {names : List String} {s : Local} {xs : List Content}
    (h : s.Follows w xs) (hnames : ∀ index ∈ names, ∃ x ∈ xs, x.name = index) :
    (Update.updateEach Local.host batchSize names).After s
      (fun _ t => ∃ ys, t.Follows w ys ∧
        ys.map (fun z => z.definition.bare) = xs.map (fun z => z.definition.bare) ∧
        ∀ y ∈ ys, y.name ∈ names ∨ (∃ x ∈ xs, x.name = y.name ∧ x.definition.lastSequence = w.store.sequence) →
          y.definition.lastSequence = w.store.sequence) fun _ _ => False := by
  -- the indexes that come later may have been brought there before, so they are told apart by a disjunction
  induction names generalizing s xs with
  | nil =>
    refine after_pure ⟨xs, h, rfl, ?_⟩
    rintro y hy (hnone | ⟨x, hx, hname, heq⟩)
    · exact absurd hnone List.not_mem_nil
    · rwa [← Content.eq_of_name_eq h.sound.holds.distinct hx hy hname]
  | cons index rest ih =>
    obtain ⟨x, hx, hname⟩ := hnames index List.mem_cons_self
    refine after_bind ((after_updateIndex_local h hx hname batchSize).mono ?_ fun _ _ he => he)
    rintro _ t ⟨ys, y, hreach⟩
    have hrest : ∀ i ∈ rest, ∃ z ∈ ys, z.name = i := by
      intro i hi
      obtain ⟨z, hz, hzi⟩ := hnames i (List.mem_cons_of_mem _ hi)
      obtain ⟨z', hz', heq⟩ := Content.exists_name_of_bare hreach.bare_eq.symm hz
      exact ⟨z', hz', heq.trans hzi⟩
    refine (ih hreach.follows hrest).mono ?_ fun _ _ he => he
    rintro _ u ⟨zs, hfollows, hzs, hall⟩
    refine ⟨zs, hfollows, hzs.trans hreach.bare_eq, ?_⟩
    intro z hz hcase
    refine hall z hz ?_
    obtain ⟨z', hz', hzname⟩ := Content.exists_name_of_bare hzs hz
    by_cases hindex : z.name = index
    · right
      refine ⟨y, hreach.mem, hreach.name_eq.trans hindex.symm, hreach.checkpoint_eq⟩
    · rcases hcase with hin | ⟨x', hx', hx'name, hx'eq⟩
      · exact Or.inl ((List.mem_cons.mp hin).resolve_left hindex)
      · right
        refine ⟨z', hz', hzname, ?_⟩
        have hz'x := hreach.others z' hz' (by rw [hzname]; exact hindex)
        rwa [Content.eq_of_name_eq h.sound.holds.distinct hz'x hx' (hzname.trans hx'name.symm)]

/-- An update of all indexes succeeds and brings all checkpoints to the sequence of the store. -/
theorem after_updateAll (h : s.Follows w xs) (batchSize : Nat) :
    (Update.updateAll Local.host batchSize).After s
      (fun _ t => ∃ ys, t.Follows w ys ∧
        ys.map (fun z => z.definition.bare) = xs.map (fun z => z.definition.bare) ∧
        ∀ y ∈ ys, y.definition.lastSequence = w.store.sequence) fun _ _ => False := by
  have hperm := Catalog.sorted_perm (xs.map (·.definition))
  unfold Update.updateAll
  refine after_bind (after_look h.sound.holds.definitions ?_)
  have hnames : ∀ index ∈ (Catalog.sorted (xs.map (·.definition))).map (·.name), ∃ x ∈ xs, x.name = index := by
    intro index hindex
    obtain ⟨d, hd, rfl⟩ := List.mem_map.mp hindex
    obtain ⟨x, hx, rfl⟩ := List.mem_map.mp (hperm.mem_iff.mp hd)
    exact ⟨x, hx, rfl⟩
  refine (after_updateEach batchSize h hnames).mono ?_ fun _ _ he => he
  rintro _ t ⟨ys, hfollows, hbare, hall⟩
  refine ⟨ys, hfollows, hbare, fun y hy => hall y hy (Or.inl ?_)⟩
  obtain ⟨x, hx, hname⟩ := Content.exists_name_of_bare hbare hy
  rw [← hname]
  exact List.mem_map_of_mem (hperm.mem_iff.mpr (List.mem_map_of_mem hx))

end Update

end DocIndex
