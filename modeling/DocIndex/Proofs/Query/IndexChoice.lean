import DocIndex.Proofs.Query.Documents

/-! # One index instead of another

Two value indexes that are up to date show the same values of a live document in the fields that both have, though each
has rows of its own: other fields, with arrays of their own, in another order. A scan of conditions on common fields
finds such a document in the one index just when it finds it in the other. Nothing is asked of the conditions: what
cannot be written for the one index cannot be written for the other either.
-/

namespace DocIndex

variable {db : Database} {d e : Definition} {t u : Table} {r : Revision} {path : String} {c : Condition}
variable {group : List (String × Condition)} {S : String → Prop}

/-! ## Sets that agree -/

namespace IdSet

/-- Two sets can be read, and list the same of some documents. -/
def AgreeOn (S : String → Prop) (db : Database) (left right : IdSet) : Prop :=
  ∃ p q : String → Prop, left.Lists db p ∧ right.Lists db q ∧ ∀ id, S id → (p id ↔ q id)

variable {left right left' right' : IdSet} {lefts rights : List IdSet}

theorem AgreeOn.without (h : AgreeOn S db left right) (h' : AgreeOn S db left' right') :
    AgreeOn S db (.without left left') (.without right right') := by
  obtain ⟨p, q, hp, hq, hpq⟩ := h
  obtain ⟨p', q', hp', hq', hpq'⟩ := h'
  exact ⟨_, _, hp.without hp', hq.without hq', fun id hid => and_congr (hpq id hid) (not_congr (hpq' id hid))⟩

theorem agreeOn_all (h : List.Forall₂ (AgreeOn S db) lefts rights) :
    ∃ ps qs : List (String → Prop), List.Forall₂ (fun s p => Lists db s p) lefts ps ∧
      List.Forall₂ (fun s q => Lists db s q) rights qs ∧
      ∀ id, S id → ((∀ p ∈ ps, p id) ↔ ∀ q ∈ qs, q id) := by
  induction h with
  | nil => exact ⟨[], [], .nil, .nil, fun _ _ => by simp⟩
  | cons h _ ih =>
    obtain ⟨p, q, hp, hq, hpq⟩ := h
    obtain ⟨ps, qs, hps, hqs, hall⟩ := ih
    refine ⟨p :: ps, q :: qs, .cons hp hps, .cons hq hqs, fun id hid => ?_⟩
    rw [List.forall_mem_cons, List.forall_mem_cons]
    exact and_congr (hpq id hid) (hall id hid)

theorem AgreeOn.intersect (hne : lefts ≠ []) (h : List.Forall₂ (AgreeOn S db) lefts rights) :
    AgreeOn S db (.intersect lefts) (.intersect rights) := by
  have hne' : rights ≠ [] := by
    rintro rfl
    exact hne (List.forall₂_nil_right_iff.mp h)
  obtain ⟨ps, qs, hps, hqs, hall⟩ := agreeOn_all h
  exact ⟨_, _, lists_intersect hne hps, lists_intersect hne' hqs, hall⟩

theorem AgreeOn.ids (h : AgreeOn S db left right) :
    ∃ found others, left.ids db = .ok found ∧ right.ids db = .ok others ∧
      ∀ id, S id → (id ∈ found ↔ id ∈ others) := by
  obtain ⟨p, q, ⟨_, found, hfound, hp⟩, ⟨_, others, hothers, hq⟩, hpq⟩ := h
  exact ⟨found, others, hfound, hothers, fun id hid => by rw [hp, hq, hpq id hid]⟩

end IdSet

/-! ## Fields in common -/

/-- Two indexes have a field, and record the same type for it. -/
structure Definition.Shares (d e : Definition) (path : String) : Prop where
  left : d.covers path = true
  right : e.covers path = true
  typeOf?_eq : d.typeOf? path = e.typeOf? path

namespace Definition.Shares

theorem symm (h : d.Shares e path) : e.Shares d path := ⟨h.right, h.left, h.typeOf?_eq.symm⟩

theorem admits_eq (h : d.Shares e path) : d.admits path = e.admits path := by
  funext v
  rw [Definition.admits, Definition.admits, h.typeOf?_eq]

theorem valuesOf_eq (h : d.Shares e path) (r : Revision) : d.valuesOf r path = e.valuesOf r path := by
  rw [Definition.valuesOf, Definition.valuesOf, h.typeOf?_eq]

end Definition.Shares

/-- A row of the one index that shows a document has a counterpart in the other, with the same values where it has
values. -/
theorem Table.ShowsLive.exists_counterpart (h : t.ShowsLive d r) (h' : u.ShowsLive e r)
    (hle : Index.arrays e.fields r ≤ 1) {row : Row} (hrow : row ∈ t.rows) (hid : row.docId = r.docId) :
    ∃ other ∈ u.rows, other.docId = r.docId ∧ ∀ path, d.Shares e path → (t.cellAt d row path).isNull = false →
      u.cellAt e other path = t.cellAt d row path := by
  classical
  let pick : String → Json := fun path =>
    if hv : ∃ v ∈ d.valuesOf r path, t.cellAt d row path = v.cell then hv.choose else .null
  obtain ⟨other, hother, hcell⟩ := h'.exists_row hle pick
  obtain ⟨hmem, hid'⟩ := h'.mem_rows.mpr hother
  refine ⟨other, hmem, hid', fun path hshares hnull => ?_⟩
  have hv : ∃ v ∈ d.valuesOf r path, t.cellAt d row path = v.cell := by
    refine (h.cellAt_cases (h.mem_rows.mp ⟨hrow, hid⟩) hshares.left).resolve_left ?_
    rw [hnull]
    decide
  have hpick : pick path = hv.choose := dif_pos hv
  obtain ⟨hvalue, hshown⟩ := hv.choose_spec
  have hpicked : pick path ∈ e.valuesOf r path := by
    rw [← hshares.valuesOf_eq, hpick]
    exact hvalue
  rw [hcell path hshares.right hpicked, hpick]
  exact hshown.symm

/-! ## Conditions in common -/

namespace Compile

theorem bind?_eq {v : Json} {x : SqlValue} (h : bind? v = .ok x) : x = v.cell := by
  unfold bind? at h
  cases hv : SqlValue.ofJson? v with
  | none => simp [hv] at h
  | some y =>
    simp only [hv, Except.ok.injEq] at h
    simp [Json.cell, hv, h]

theorem bindAll?_eq {vs : List Json} {xs : List SqlValue} (h : bindAll? vs = .ok xs) : xs = vs.map Json.cell := by
  induction vs generalizing xs with
  | nil => exact (Except.ok.inj h).symm
  | cons v rest ih =>
    unfold bindAll? at h
    obtain ⟨x, hx, h⟩ := ok_of_bind h
    obtain ⟨more, hmore, h⟩ := ok_of_bind h
    rw [← Except.ok.inj h, List.map_cons, bind?_eq hx, ih hmore]

theorem predicate?_shares (hs : d.Shares e path) {q : Predicate} (h : predicate? d path c = .ok q) :
    q = predicate d path c ∧ predicate? e path c = .ok (predicate e path c) := by
  have hleft := Definition.column?_eq hs.left
  have hright := Definition.column?_eq hs.right
  unfold predicate? at h ⊢
  simp only [hleft, bind, Except.bind] at h
  simp only [hright, bind, Except.bind]
  cases c with
  | compare op v =>
    simp only [← hs.admits_eq, predicate] at h ⊢
    cases hadmits : d.admits path v with
    | false =>
      simp only [hadmits, Bool.false_eq_true, if_false, Except.ok.injEq] at h ⊢
      exact ⟨h.symm, trivial⟩
    | true =>
      simp only [hadmits, if_true] at h ⊢
      obtain ⟨x, hx, h⟩ := ok_of_bind h
      obtain rfl := bind?_eq hx
      exact ⟨(Except.ok.inj h).symm, by rw [hx]⟩
  | oneOf vs =>
    simp only [← hs.admits_eq, predicate] at h ⊢
    obtain ⟨xs, hxs, h⟩ := ok_of_bind h
    obtain rfl := bindAll?_eq hxs
    simp only [hxs]
    cases hbound : (vs.filter (d.admits path)).map Json.cell with
    | nil =>
      simp only [hbound, Except.ok.injEq] at h
      exact ⟨h.symm, rfl⟩
    | cons x rest =>
      simp only [hbound, Except.ok.injEq] at h
      exact ⟨h.symm, rfl⟩
  | present expected =>
    cases expected with
    | false => simp at h
    | true =>
      simp only [Except.ok.injEq] at h
      exact ⟨h.symm, rfl⟩
  | not inner => simp at h

theorem predicates?_shares (hs : ∀ p ∈ group, d.Shares e p.1) {qs : List Predicate}
    (h : predicates? d group = .ok qs) :
    qs = group.map (fun p => predicate d p.1 p.2) ∧
      predicates? e group = .ok (group.map fun p => predicate e p.1 p.2) := by
  induction group generalizing qs with
  | nil => exact ⟨(Except.ok.inj h).symm, rfl⟩
  | cons p rest ih =>
    unfold predicates? at h ⊢
    obtain ⟨q, hq, h⟩ := ok_of_bind h
    obtain ⟨more, hmore, h⟩ := ok_of_bind h
    obtain ⟨rfl, hp⟩ := predicate?_shares (hs p List.mem_cons_self) hq
    obtain ⟨rfl, hrest⟩ := ih (fun p hp => hs p (List.mem_cons_of_mem _ hp)) hmore
    simp only [hp, hrest, bind, Except.bind]
    exact ⟨(Except.ok.inj h).symm, rfl⟩

theorem negative?_shares (hs : d.Shares e path) {ids : IdSet} (h : negative? d path c = .ok ids) :
    ids = negative d path c ∧ negative? e path c = .ok (negative e path c) := by
  have hleft := Definition.column?_eq hs.left
  have hright := Definition.column?_eq hs.right
  unfold negative? at h ⊢
  simp only [hleft, bind, Except.bind] at h
  simp only [hright, bind, Except.bind]
  cases c with
  | not inner =>
    obtain ⟨q, hq, h⟩ := ok_of_bind h
    obtain ⟨rfl, hinner⟩ := predicate?_shares hs hq
    simp only [hinner]
    exact ⟨(Except.ok.inj h).symm, rfl⟩
  | _ => exact ⟨(Except.ok.inj h).symm, rfl⟩

theorem negatives?_shares (hs : ∀ p ∈ group, d.Shares e p.1) {sets : List IdSet}
    (h : negatives? d group = .ok sets) :
    sets = group.map (fun p => negative d p.1 p.2) ∧
      negatives? e group = .ok (group.map fun p => negative e p.1 p.2) := by
  induction group generalizing sets with
  | nil => exact ⟨(Except.ok.inj h).symm, rfl⟩
  | cons p rest ih =>
    unfold negatives? at h ⊢
    obtain ⟨q, hq, h⟩ := ok_of_bind h
    obtain ⟨more, hmore, h⟩ := ok_of_bind h
    obtain ⟨rfl, hp⟩ := negative?_shares (hs p List.mem_cons_self) hq
    obtain ⟨rfl, hrest⟩ := ih (fun p hp => hs p (List.mem_cons_of_mem _ hp)) hmore
    simp only [hp, hrest, bind, Except.bind]
    exact ⟨(Except.ok.inj h).symm, rfl⟩

theorem scan?_shares (hs : ∀ p ∈ group, d.Shares e p.1) {ids : IdSet} (h : scan? d group = .ok ids) :
    ids = scan d group ∧ scan? e group = .ok (scan e group) := by
  have hpositive : ∀ p ∈ group.filter (!·.2.isNegative), d.Shares e p.1 := fun p hp => hs p (List.mem_filter.mp hp).1
  have hnegative : ∀ p ∈ group.filter (·.2.isNegative), d.Shares e p.1 := fun p hp => hs p (List.mem_filter.mp hp).1
  unfold scan? at h ⊢
  unfold scan
  simp only at h ⊢
  by_cases hnone : ((group.filter (!·.2.isNegative)).isEmpty && !(group.filter (·.2.isNegative)).isEmpty) = true
  · simp only [hnone, if_true] at h ⊢
    obtain ⟨_, hrows, h⟩ := ok_of_bind h
    obtain rfl := Except.ok.inj hrows
    obtain ⟨sets, hsets, h⟩ := ok_of_bind h
    obtain ⟨rfl, hmore⟩ := negatives?_shares hnegative hsets
    simp only [hmore, bind, Except.bind]
    exact ⟨(Except.ok.inj h).symm, trivial⟩
  · simp only [hnone, Bool.false_eq_true, if_false] at h ⊢
    obtain ⟨qs, hqs, h⟩ := ok_of_bind h
    obtain ⟨rfl, hselect⟩ := predicates?_shares hpositive hqs
    obtain ⟨_, hrows, h⟩ := ok_of_bind h
    obtain rfl := Except.ok.inj hrows
    obtain ⟨sets, hsets, h⟩ := ok_of_bind h
    obtain ⟨rfl, hmore⟩ := negatives?_shares hnegative hsets
    simp only [hselect, hmore, bind, Except.bind]
    exact ⟨(Except.ok.inj h).symm, trivial⟩

/-! ## Rows in common -/

theorem isNull_of_holds (hcovers : d.covers path = true) {row : Row} (h : (predicate d path c).holds t row = true) :
    (t.cellAt d row path).isNull = false := by
  rw [Table.cellAt_eq hcovers]
  induction c with
  | compare op v =>
    unfold predicate at h
    split at h
    · simp [Predicate.holds] at h
      exact h.1.1
    · simp [Predicate.holds] at h
  | oneOf vs =>
    unfold predicate choice at h
    split at h
    · simp [Predicate.holds] at h
    · simp [Predicate.holds] at h
      exact h.1
  | present expected => simpa [predicate, Predicate.holds] using h
  | not inner ih => exact ih h

theorem holds_congr (hs : d.Shares e path) {row other : Row}
    (hcell : u.cellAt e other path = t.cellAt d row path) :
    (predicate e path c).holds u other = (predicate d path c).holds t row := by
  rw [Table.cellAt_eq hs.left, Table.cellAt_eq hs.right] at hcell
  induction c with
  | compare op v =>
    unfold predicate
    rw [hs.admits_eq]
    split
    · simp only [Predicate.holds, hcell]
    · rfl
  | oneOf vs =>
    unfold predicate
    rw [hs.admits_eq]
    cases (vs.filter (e.admits path)).map Json.cell with
    | nil => rfl
    | cons v rest => simp only [choice, Predicate.holds, hcell]
  | present expected => simp only [predicate, Predicate.holds, hcell]
  | not inner ih => exact ih

end Compile

/-- A document that both tables show, with at most one array in the fields of each index. -/
def Table.BothShow (t : Table) (d : Definition) (u : Table) (e : Definition) (id : String) : Prop :=
  ∃ r : Revision, r.docId = id ∧ (t.ShowsLive d r ∧ Index.arrays d.fields r ≤ 1) ∧
    u.ShowsLive e r ∧ Index.arrays e.fields r ≤ 1

theorem Table.BothShow.symm {id : String} (h : t.BothShow d u e id) : u.BothShow e t d id := by
  obtain ⟨r, hid, hleft, hright⟩ := h
  exact ⟨r, hid, hright, hleft⟩

namespace Compile

theorem selected_again {id : String} (h : t.BothShow d u e id) (hs : ∀ p ∈ group, d.Shares e p.1)
    (hfound : ∃ row ∈ t.rows, row.docId = id ∧ ∀ q ∈ group.map fun p => predicate d p.1 p.2, q.holds t row = true) :
    ∃ row ∈ u.rows, row.docId = id ∧ ∀ q ∈ group.map fun p => predicate e p.1 p.2, q.holds u row = true := by
  obtain ⟨r, rfl, ⟨hleft, _⟩, hright, hle⟩ := h
  obtain ⟨row, hrow, hid, hall⟩ := hfound
  rw [List.forall_mem_map] at hall
  obtain ⟨other, hother, hid', hcell⟩ := hleft.exists_counterpart hright hle hrow hid
  refine ⟨other, hother, hid', List.forall_mem_map.mpr fun p hp => ?_⟩
  have hshares := hs p hp
  rw [holds_congr hshares (hcell p.1 hshares (isNull_of_holds hshares.left (hall p hp)))]
  exact hall p hp

section

variable (ht : db.table? d.tableName = .ok t) (hrows : t.rows? = .ok t.rows)
variable (hu : db.table? e.tableName = .ok u) (hrows' : u.rows? = .ok u.rows)

include ht hrows hu hrows'

theorem rows_agree (group : List (String × Condition)) (hs : ∀ p ∈ group, d.Shares e p.1) :
    IdSet.AgreeOn (t.BothShow d u e) db (.rows d.tableName (group.map fun p => predicate d p.1 p.2))
      (.rows e.tableName (group.map fun p => predicate e p.1 p.2)) :=
  ⟨_, _, IdSet.lists_rows ht hrows _, IdSet.lists_rows hu hrows' _,
    fun _ h => ⟨selected_again h hs, selected_again h.symm fun p hp => (hs p hp).symm⟩⟩

theorem negative_agree (hs : d.Shares e path) (c : Condition) :
    IdSet.AgreeOn (t.BothShow d u e) db (negative d path c) (negative e path c) := by
  have hall := rows_agree ht hrows hu hrows' [] (by simp)
  have hone : ∀ c, IdSet.AgreeOn (t.BothShow d u e) db (.rows d.tableName [predicate d path c])
      (.rows e.tableName [predicate e path c]) := by
    intro c
    refine rows_agree ht hrows hu hrows' [(path, c)] fun p hp => ?_
    rw [List.mem_singleton.mp hp]
    exact hs
  cases c with
  | not inner => exact (hone (.present true)).without (hone inner)
  | _ => exact hall.without (hone (.present true))

theorem negatives_agree (group : List (String × Condition)) (hs : ∀ p ∈ group, d.Shares e p.1) :
    List.Forall₂ (IdSet.AgreeOn (t.BothShow d u e) db) (group.map fun p => negative d p.1 p.2)
      (group.map fun p => negative e p.1 p.2) := by
  rw [List.forall₂_map_left_iff, List.forall₂_map_right_iff, List.forall₂_same]
  exact fun p hp => negative_agree ht hrows hu hrows' (hs p hp) p.2

theorem scan_agree (hs : ∀ p ∈ group, d.Shares e p.1) :
    IdSet.AgreeOn (t.BothShow d u e) db (scan d group) (scan e group) := by
  have hpositive := rows_agree ht hrows hu hrows' (group.filter (!·.2.isNegative))
    fun p hp => hs p (List.mem_filter.mp hp).1
  have hnegative := negatives_agree ht hrows hu hrows' (group.filter (·.2.isNegative))
    fun p hp => hs p (List.mem_filter.mp hp).1
  unfold scan
  simp only
  by_cases hnone : ((group.filter (!·.2.isNegative)).isEmpty && !(group.filter (·.2.isNegative)).isEmpty) = true
  · simp only [hnone, if_true, List.nil_append]
    refine .intersect ?_ hnegative
    rw [Bool.and_eq_true, Bool.not_eq_true', List.isEmpty_eq_false_iff] at hnone
    exact fun hnil => hnone.2 (List.map_eq_nil_iff.mp hnil)
  · simp only [hnone, Bool.false_eq_true, if_false]
    exact .intersect (List.cons_ne_nil _ _) (.cons hpositive hnegative)

end

end Compile

namespace World

variable {w : World} {xs : List Content} {x y : Content}

theorem Sound.bothShow (h : w.Sound xs) (hx : x ∈ xs) (hy : y ∈ xs) (hk : x.definition.kind = .value)
    (hk' : y.definition.kind = .value)
    (hc : w.starts x.name = 0 ∧ x.definition.lastSequence = w.store.sequence)
    (hc' : w.starts y.name = 0 ∧ y.definition.lastSequence = w.store.sequence) (ht : t.Keeps x) (hu : u.Keeps y)
    (hr : w.store.winning? r.docId = some r) (hlive : r.deleted = false)
    (hle : Index.arrays x.definition.fields r ≤ 1) (hle' : Index.arrays y.definition.fields r ≤ 1) :
    t.BothShow x.definition u y.definition r.docId :=
  ⟨r, rfl, ⟨h.showsLive hx hc hk ht hr hlive, hle⟩, h.showsLive hy hc' hk' hu hr hlive, hle'⟩

/-- In every run, take two value indexes that start with the store and have come to its present, and a group of
conditions on fields of both for which they record the same types. If the group can be written for the one, as every
group of a request can, it can for the other, both scans can be read, and a live document with at most one array in the
fields of each index is found by both or by none. -/
theorem run_scans_agree (events : List Event) :
    ∃ definitions, (run {} events).database.definitions = .ok definitions ∧ ∀ d ∈ definitions, ∀ e ∈ definitions,
      d.kind = .value → e.kind = .value →
      (run {} events).starts d.name = 0 → d.lastSequence = (run {} events).store.sequence →
      (run {} events).starts e.name = 0 → e.lastSequence = (run {} events).store.sequence →
      ∀ group : List (String × Condition), (∀ p ∈ group, d.Shares e p.1) →
        ((∀ p ∈ group, p.2.Requested) → ∃ ids, Compile.scan? d group = .ok ids) ∧
        ∀ ids, Compile.scan? d group = .ok ids →
          ∃ ids' found found', Compile.scan? e group = .ok ids' ∧ ids.ids (run {} events).database = .ok found ∧
            ids'.ids (run {} events).database = .ok found' ∧
            ∀ r, (run {} events).store.winning? r.docId = some r → r.deleted = false →
              Index.arrays d.fields r ≤ 1 → Index.arrays e.fields r ≤ 1 → (r.docId ∈ found ↔ r.docId ∈ found') := by
  obtain ⟨xs, h⟩ := Sound.empty.run events
  refine ⟨_, h.holds.definitions, ?_⟩
  intro d hd e he hk hk' hstart hcheckpoint hstart' hcheckpoint' group hshares
  obtain ⟨x, hx, rfl⟩ := List.mem_map.mp ((Catalog.sorted_perm _).mem_iff.mp hd)
  obtain ⟨y, hy, rfl⟩ := List.mem_map.mp ((Catalog.sorted_perm _).mem_iff.mp he)
  refine ⟨fun hgroup => ⟨_, Compile.scan?_eq ⟨fun p hp => (hshares p hp).left, hgroup⟩⟩, fun ids hids => ?_⟩
  obtain ⟨rfl, hids'⟩ := Compile.scan?_shares hshares hids
  obtain ⟨t, _, ht, htable⟩ := h.holds.table? hx
  obtain ⟨u, _, hu, hutable⟩ := h.holds.table? hy
  have hagree := Compile.scan_agree htable (by rw [ht.rows?, ht.rows_eq]) hutable (by rw [hu.rows?, hu.rows_eq]) hshares
  obtain ⟨found, found', hfound, hfound', hiff⟩ := hagree.ids
  refine ⟨_, found, found', hids', hfound, hfound', fun r hr hlive hle hle' => hiff _ ?_⟩
  exact h.bothShow hx hy hk hk' ⟨hstart, hcheckpoint⟩ ⟨hstart', hcheckpoint'⟩ ht hu hr hlive hle hle'

/-- Two indexes of the same people. Each has an array of its own beside the age, and the ages are in different
columns. -/
def twice : List Event :=
  [.ensure { name := "tags", fields := [{ path := "age" }, { path := "tags" }] } "" 0,
    .ensure { name := "pets", fields := [{ path := "pets" }, { path := "age" }] } "" 0,
    .create "ann" [("age", .number (.int 40)), ("pets", .array [.string "cat", .string "dog"]),
      ("tags", .array [.string "tall", .string "late", .string "calm"])],
    .startUpdate 0 "tags" 10 0, .advance 0, .advance 0, .advance 0,
    .startUpdate 1 "pets" 10 0, .advance 1, .advance 1, .advance 1]

def byTags : Definition :=
  { name := "tags", kind := .value, fields := [⟨"age", some .number⟩, ⟨"tags", some .string⟩], lastSequence := 1 }

def byPets : Definition :=
  { name := "pets", kind := .value, fields := [⟨"pets", some .string⟩, ⟨"age", some .number⟩], lastSequence := 1 }

/-- Over thirty, not forty-one, with an identifier. -/
def overThirty : List (String × Condition) :=
  [("age", .compare .gt (.number (.int 30))), ("age", .not (.compare .eq (.number (.int 41)))),
    ("_id", .present true)]

/-- The one index finds ann, so the other does. -/
theorem run_scans_agree_twice : ∃ ids' found', Compile.scan? byPets overThirty = .ok ids' ∧
    ids'.ids (run {} twice).database = .ok found' ∧ "ann" ∈ found' := by
  obtain ⟨definitions, hdefinitions, hall⟩ := run_scans_agree twice
  have hlist : (run {} twice).database.definitions.toOption = some [byPets, byTags] := by decide +kernel
  rw [hdefinitions] at hlist
  obtain rfl : definitions = [byPets, byTags] := Option.some.inj hlist
  have hshares : ∀ p ∈ overThirty, byTags.Shares byPets p.1 := by
    have hage : byTags.Shares byPets "age" := ⟨by decide, by decide, by decide⟩
    have hid : byTags.Shares byPets "_id" := ⟨by decide, by decide, by decide⟩
    simp [overThirty, hage, hid]
  obtain ⟨_, hscan⟩ := hall byTags (by simp) byPets (by simp) rfl rfl (by decide +kernel) (by decide +kernel)
    (by decide +kernel) (by decide +kernel) overThirty hshares
  obtain ⟨ids', found, found', hids', hfound, hfound', hiff⟩ := hscan (Compile.scan byTags overThirty) rfl
  have hann : ((Compile.scan byTags overThirty).ids (run {} twice).database).toOption.map (·.contains "ann") =
      some true := by decide +kernel
  rw [hfound] at hann
  have hann : "ann" ∈ found := List.contains_iff_mem.mp (Option.some.inj hann)
  have hshown : ((run {} twice).store.winning? "ann").map (fun r => (r.docId, r.deleted, Index.arrays byTags.fields r,
      Index.arrays byPets.fields r)) = some ("ann", false, 1, 1) := by decide +kernel
  obtain ⟨r, hr, hfacts⟩ := Option.map_eq_some_iff.mp hshown
  obtain ⟨hid, hlive, htags, hpets⟩ : r.docId = "ann" ∧ r.deleted = false ∧ Index.arrays byTags.fields r = 1 ∧
    Index.arrays byPets.fields r = 1 := by simpa using hfacts
  have hann' := hiff r (by rw [hid]; exact hr) hlive htags.le hpets.le
  rw [hid] at hann'
  exact ⟨ids', found', hids', hfound', hann'.mp hann⟩

end World

end DocIndex
