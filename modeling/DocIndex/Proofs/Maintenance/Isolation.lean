import DocIndex.Proofs.Maintenance.Batches

/-! # Updates of all indexes that fail

An update of all indexes takes them in the order of their names, one after the other, and ends at the first request that
fails. How many requests each index takes is told by the store alone: one for its sequence, and one for each page from
the checkpoint of the index on. So the place of the failing request tells which index it belongs to and how many batches
of that index were committed; the indexes before are as if each had been updated alone, those after as they were.
-/

namespace DocIndex

/-! ## Names as bytes -/

def bytes (s : String) : List UInt8 := s.toUTF8.data.toList

theorem bytes_eq_flatMap (s : String) : bytes s = s.toList.flatMap String.utf8EncodeChar := by
  unfold bytes
  rw [String.toUTF8, ← String.utf8Encode_toList, List.utf8Encode]
  simp

theorem toNat_lt_of_isNameChar {c : Char} (h : isNameChar c = true) : c.val.toNat < 128 := by
  have hbound : ∀ top : UInt32, top.toNat < 128 → c.val ≤ top → c.val.toNat < 128 :=
    fun top htop hle => Nat.lt_of_le_of_lt (UInt32.le_iff_toNat_le.mp hle) htop
  unfold isNameChar Char.isAlphanum Char.isAlpha Char.isUpper Char.isLower Char.isDigit at h
  simp only [Bool.or_eq_true, Bool.and_eq_true, decide_eq_true_eq, beq_iff_eq] at h
  rcases h with ((⟨_, hle⟩ | ⟨_, hle⟩) | ⟨_, hle⟩) | rfl
  · exact hbound _ (by decide) hle
  · exact hbound _ (by decide) hle
  · exact hbound _ (by decide) hle
  · decide

theorem bytes_of_ascii {s : String} (h : ∀ c ∈ s.toList, c.val.toNat < 128) :
    bytes s = s.toList.map fun c => c.val.toUInt8 := by
  rw [bytes_eq_flatMap, List.map_eq_flatMap]
  refine List.flatMap_congr fun c hc => String.utf8EncodeChar_eq_singleton ?_
  have hsmall := h c hc
  rw [Char.utf8Size_eq_one_iff, UInt32.le_iff_toNat_le]
  exact Nat.le_of_lt_succ hsmall

theorem map_toUInt8_lt {cs ds : List Char} (hcs : ∀ c ∈ cs, c.val.toNat < 128) (hds : ∀ c ∈ ds, c.val.toNat < 128)
    (h : cs < ds) : (cs.map fun c => c.val.toUInt8) < ds.map fun c => c.val.toUInt8 := by
  induction cs generalizing ds with
  | nil =>
    cases ds with
    | nil => exact absurd h (lt_irrefl _)
    | cons d more => simp
  | cons c rest ih =>
    cases ds with
    | nil => simp at h
    | cons d more =>
      rw [List.cons_lt_cons_iff] at h
      rw [List.forall_mem_cons] at hcs hds
      rw [List.map_cons, List.map_cons, List.cons_lt_cons_iff]
      refine h.imp ?_ ?_
      · intro hlt
        have hval : c.val.toNat < d.val.toNat := hlt
        rw [UInt8.lt_iff_toNat_lt, UInt32.toNat_toUInt8, UInt32.toNat_toUInt8]
        omega
      · rintro ⟨rfl, hrest⟩
        exact ⟨rfl, ih hcs.2 hds.2 hrest⟩

theorem bytes_lt_of_lt {s t : String} (hs : isIndexName s = true) (ht : isIndexName t = true) (h : s < t) :
    bytes s < bytes t := by
  have hsmall : ∀ {name : String}, isIndexName name = true → ∀ c ∈ name.toList, c.val.toNat < 128 :=
    fun hname c hc => toNat_lt_of_isNameChar (Database.isNameChar_of_mem hname hc)
  rw [bytes_of_ascii (hsmall hs), bytes_of_ascii (hsmall ht)]
  exact map_toUInt8_lt (hsmall hs) (hsmall ht) (String.lt_iff_toList_lt.mp h)

/-! ## Pages -/

namespace Store

variable {s : Store} {limit fuel other : Nat} {since : Int}

/-- How many pages lead from a sequence to that of the store, if no more than `fuel` do. -/
def pagesFrom (s : Store) (limit : Nat) : Nat → Int → Nat
  | 0, _ => 0
  | fuel + 1, since =>
    if s.sequence ≤ since then 0
    else s.pagesFrom limit fuel (Page.cut s.sequence limit (s.changesSince since limit)).checkpoint + 1

/-- How many pages of at most `limit` changes lead from a sequence to that of the store. -/
def pages (s : Store) (limit : Nat) (since : Int) : Nat := s.pagesFrom limit (s.sequence - since).toNat since

theorem pagesFrom_of_le (h : s.sequence ≤ since) (fuel : Nat) : s.pagesFrom limit fuel since = 0 := by
  cases fuel with
  | zero => rfl
  | succ fuel => exact if_pos h

theorem pages_of_le (h : s.sequence ≤ since) : s.pages limit since = 0 := pagesFrom_of_le h _

theorem pagesFrom_congr (hs : s.WellFormed) (hpos : 0 < limit) (hfuel : (s.sequence - since).toNat ≤ fuel)
    (hother : (s.sequence - since).toNat ≤ other) : s.pagesFrom limit fuel since = s.pagesFrom limit other since := by
  induction fuel generalizing other since with
  | zero =>
    have hle : s.sequence ≤ since := by omega
    rw [pagesFrom_of_le hle, pagesFrom_of_le hle]
  | succ fuel ih =>
    by_cases hle : s.sequence ≤ since
    · rw [pagesFrom_of_le hle, pagesFrom_of_le hle]
    · obtain ⟨other, rfl⟩ : ∃ n, other = n + 1 := ⟨other - 1, by omega⟩
      have hcovers := Page.cut_covers hs hpos (Int.not_le.mp hle) (Int.le_refl _)
      have hlt := hcovers.since_lt
      have hsame : s.pagesFrom limit fuel (Page.cut s.sequence limit (s.changesSince since limit)).checkpoint =
          s.pagesFrom limit other (Page.cut s.sequence limit (s.changesSince since limit)).checkpoint :=
        ih (by omega) (by omega)
      rw [pagesFrom, pagesFrom, if_neg hle, if_neg hle, hsame]

theorem pages_of_lt (hs : s.WellFormed) (hpos : 0 < limit) (h : since < s.sequence) :
    s.pages limit since = s.pages limit (Page.cut s.sequence limit (s.changesSince since limit)).checkpoint + 1 := by
  have hcovers := Page.cut_covers hs hpos h (Int.le_refl _)
  have hlt := hcovers.since_lt
  obtain ⟨n, hn⟩ : ∃ n, (s.sequence - since).toNat = n + 1 := ⟨(s.sequence - since).toNat - 1, by omega⟩
  have hsame : s.pagesFrom limit n (Page.cut s.sequence limit (s.changesSince since limit)).checkpoint =
      s.pages limit (Page.cut s.sequence limit (s.changesSince since limit)).checkpoint :=
    pagesFrom_congr hs hpos (by omega) (Nat.le_refl _)
  rw [pages, hn, pagesFrom, if_neg (Int.not_le.mpr h), hsame]

end Store

/-! ## Batches of a content -/

namespace Content

variable {s : Store} {x : Content} {batchSize n : Nat}

def batch (s : Store) (batchSize : Nat) (x : Content) : Content :=
  if s.sequence ≤ x.definition.lastSequence then x
  else x.apply (Page.cut s.sequence (max batchSize 1) (s.changesSince x.definition.lastSequence (max batchSize 1)))

theorem batch_name (s : Store) (batchSize : Nat) (x : Content) : (x.batch s batchSize).name = x.name := by
  unfold batch
  split
  · rfl
  · exact apply_name x _

theorem iterate_batch_name (s : Store) (batchSize n : Nat) (x : Content) :
    ((batch s batchSize)^[n] x).name = x.name := by
  induction n generalizing x with
  | zero => rfl
  | succ n ih =>
    rw [Function.iterate_succ_apply, ih, batch_name]

theorem iterate_batch_caughtUp (hs : s.WellFormed) (batchSize n : Nat) (x : Content) :
    ((batch s batchSize)^[n] x).caughtUp s = x.caughtUp s := by
  induction n generalizing x with
  | zero => rfl
  | succ n ih =>
    rw [Function.iterate_succ_apply, ih]
    unfold batch
    split
    · rfl
    · rename_i hlt
      exact caughtUp_apply_cut hs (by omega) (Int.not_le.mp hlt)

theorem sequence_le_iff (hs : s.WellFormed) (batchSize n : Nat) (x : Content) :
    s.sequence ≤ ((batch s batchSize)^[n] x).definition.lastSequence ↔
      s.pages (max batchSize 1) x.definition.lastSequence ≤ n := by
  induction n generalizing x with
  | zero =>
    rw [Function.iterate_zero, id, Nat.le_zero]
    constructor
    · exact fun hle => Store.pages_of_le hle
    · intro hnone
      by_contra hlt
      rw [Store.pages_of_lt hs (by omega) (Int.not_le.mp hlt)] at hnone
      omega
  | succ n ih =>
    rw [Function.iterate_succ_apply, ih]
    unfold batch
    split
    · rename_i hle
      rw [Store.pages_of_le hle]
      omega
    · rename_i hlt
      rw [Store.pages_of_lt hs (by omega) (Int.not_le.mp hlt)]
      exact (Nat.add_le_add_iff_right).symm

theorem iterate_batch_pages (hs : s.WellFormed) (batchSize : Nat) (x : Content) :
    (batch s batchSize)^[s.pages (max batchSize 1) x.definition.lastSequence] x = x.caughtUp s := by
  have hle := (sequence_le_iff hs batchSize _ x).mpr (Nat.le_refl _)
  rw [← iterate_batch_caughtUp hs batchSize _ x, caughtUp_of_le hs hle]

end Content

namespace Database

variable {s : Store} {db next : Database} {x : Content} {xs : List Content}

theorem Holds.batch (h : db.Holds xs) (hx : x ∈ xs) (batchSize : Nat) :
    (db.batch s batchSize x.name).Holds (Content.put (x.batch s batchSize) xs) := by
  unfold Database.batch Content.batch
  simp only [h.lastSequence? hx]
  split
  · rw [h.put_self hx]
    exact h
  · obtain ⟨later, hlater, hholds, _⟩ := h.applyBatch_applied hx (Page.cut s.sequence (max batchSize 1)
      (s.changesSince x.definition.lastSequence (max batchSize 1)))
    simp only [hlater]
    exact hholds

theorem Holds.iterate_batch (h : db.Holds xs) (hx : x ∈ xs) (batchSize n : Nat) :
    ((Database.batch s batchSize x.name)^[n] db).Holds (Content.put ((Content.batch s batchSize)^[n] x) xs) := by
  induction n generalizing db x xs with
  | zero =>
    rw [Function.iterate_zero, Function.iterate_zero, id, id, h.put_self hx]
    exact h
  | succ n ih =>
    have hname := Content.batch_name s batchSize x
    have hnext := ih (h.batch hx batchSize) (Content.mem_put_self hx hname.symm)
    rw [Content.put_put (Content.iterate_batch_name s batchSize n _).symm, hname] at hnext
    exact hnext

/-- Two databases show the same of an index: its definition, with types and checkpoint, and its rows. -/
def SameAt (index : String) (db next : Database) : Prop :=
  next.definition? index = db.definition? index ∧ next.dump index = db.dump index

theorem Holds.sameAt {ys : List Content} (h : db.Holds xs) (hnext : next.Holds ys) (hx : x ∈ xs) (hy : x ∈ ys) :
    db.SameAt x.name next := by
  refine ⟨?_, ?_⟩
  · rw [h.definition? hx, hnext.definition? hy]
  · rw [h.dump hx, hnext.dump hy]

end Database

/-! ## One index after the other -/

namespace Attempt

variable {a : Attempt} {w v : World} {s : Session} {e : QueryError} {xs : List Content} {x : Content} {m n : Nat}
variable {steps : String → Nat} {ds : List Definition}

def later (a : Attempt) (n : Nat) : Attempt := { a with failures := a.failures.drop n }

/-- The first request that fails, and the error. -/
structure Breaks (a : Attempt) (n : Nat) (e : QueryError) : Prop where
  answers : a.Answers n
  refused : ∃ f, a.failures[n]? = some (some f) ∧ e = .store f

theorem Answers.add (h : a.Answers m) (hl : (a.later m).Answers n) : a.Answers (m + n) := by
  intro f? hf
  rw [List.take_add, List.mem_append] at hf
  rcases hf with hf | hf
  · exact h f? hf
  · exact hl f? hf

theorem Breaks.add (h : a.Answers m) (hl : (a.later m).Breaks n e) : a.Breaks (m + n) e := by
  obtain ⟨f, hf, he⟩ := hl.refused
  refine ⟨h.add hl.answers, f, ?_, he⟩
  rw [← hf]
  exact List.getElem?_drop.symm

theorem Answers.le_of_refused {f : StoreError} (h : a.Answers m) (hf : a.failures[n]? = some (some f)) : m ≤ n := by
  by_contra hlt
  have hmem : some f ∈ a.failures.take m := by
    refine List.mem_of_getElem? (i := n) ?_
    rw [List.getElem?_take_of_lt (by omega)]
    exact hf
  cases h _ hmem

def pages (a : Attempt) (s : Store) (d : Definition) : Nat := s.pages (max a.batchSize 1) d.lastSequence

/-- The requests of some indexes: each asks for the sequence and for its pages. -/
def requests (a : Attempt) (s : Store) (ds : List Definition) : Nat := ds.foldr (fun d n => a.pages s d + 1 + n) 0

theorem requests_cons (a : Attempt) (s : Store) (d : Definition) (ds : List Definition) :
    a.requests s (d :: ds) = a.pages s d + 1 + a.requests s ds := rfl

theorem lastSequence?_batches (h : v.database.Holds xs) (hx : x ∈ xs) (n : Nat) :
    (a.batches x.name v n).database.catalog.lastSequence? x.name =
      .ok (some ((Content.batch v.store a.batchSize)^[n] x).definition.lastSequence) := by
  have hname := Content.iterate_batch_name v.store a.batchSize n x
  have hlast := (h.iterate_batch (s := v.store) hx a.batchSize n).lastSequence? (Content.mem_put_self hx hname.symm)
  rwa [hname] at hlast

theorem Behind.le_pages (hb : a.Behind x.name v n) (hs : v.store.WellFormed) (h : v.database.Holds xs) (hx : x ∈ xs) :
    n ≤ a.pages v.store x.definition := by
  by_contra hlt
  obtain ⟨c, hc, hlast⟩ := hb _ (Nat.not_le.mp hlt)
  rw [lastSequence?_batches h hx] at hlast
  have hle := (Content.sequence_le_iff hs a.batchSize _ x).mpr (Nat.le_refl _)
  obtain rfl := Option.some.inj (Except.ok.inj hlast)
  exact absurd hc (Int.not_lt.mpr hle)

/-- An update of one index makes its requests, or it breaks at one of them after the batches before it. -/
theorem after_index (hmeets : a.Meets v s) (hs : v.store.WellFormed) (h : v.database.Holds xs) (hx : x ∈ xs) :
    (Update.updateIndex (Session.host a.patience) a.batchSize x.name).After s
      (fun _ t => a.Answers (a.pages v.store x.definition + 1) ∧
        (a.later (a.pages v.store x.definition + 1)).Meets (a.batches x.name v (a.pages v.store x.definition)) t)
      fun e t => ∃ r ≤ a.pages v.store x.definition, a.Breaks r e ∧ t.world = a.batches x.name v (r - 1) := by
  have hleads : v.database.LeadsTo v.store (x.caughtUp v.store) xs x := ⟨h, hx, rfl⟩
  have hupdate := after_update hmeets hs hleads
  rw [Content.caughtUp_name] at hupdate
  refine hupdate.mono ?_ ?_
  · rintro _ t ⟨checkpoint, n, _, hle, hreached, hbehind⟩
    obtain ⟨ys, y, hafter, rfl⟩ := hreached.leads
    have hlast := hafter.lastSequence?
    rw [hreached.world_eq, Content.caughtUp_name, lastSequence?_batches h hx] at hlast
    rw [← Option.some.inj (Except.ok.inj hlast)] at hle
    have hpages : a.pages v.store x.definition ≤ n := (Content.sequence_le_iff hs a.batchSize n x).mp hle
    obtain rfl : n = a.pages v.store x.definition := Nat.le_antisymm (hbehind.le_pages hs h hx) hpages
    refine ⟨hreached.answers, ?_, hreached.script_eq⟩
    rw [hreached.world_eq, Content.caughtUp_name]
  · rintro e t ⟨n, hfails, hbehind⟩
    exact ⟨n, hbehind.le_pages hs h hx, ⟨hfails.answers, hfails.refused⟩, hfails.world_eq⟩

/-- How far each index of a world has come: its content after a number of batches. -/
structure Went (batchSize : Nat) (w : World) (xs : List Content) (steps : String → Nat) (v : World) : Prop where
  store_eq : v.store = w.store
  holds : v.database.Holds (xs.map fun x => (Content.batch w.store batchSize)^[steps x.name] x)

theorem Went.start (h : w.database.Holds xs) (batchSize : Nat) : Went batchSize w xs (fun _ => 0) w where
  store_eq := rfl
  holds := by
    have hid : (xs.map fun x => (Content.batch w.store batchSize)^[0] x) = xs := List.map_id xs
    rw [hid]
    exact h

theorem Went.mem (hx : x ∈ xs) (hn : steps x.name = n) (batchSize : Nat) :
    (Content.batch w.store batchSize)^[n] x ∈
      xs.map fun x => (Content.batch w.store batchSize)^[steps x.name] x := by
  rw [← hn]
  exact List.mem_map_of_mem hx

theorem Went.batches (h : Went a.batchSize w xs steps v) (hn : (xs.map Content.name).Nodup) (hx : x ∈ xs)
    (hnone : steps x.name = 0) (n : Nat) :
    Went a.batchSize w xs (Function.update steps x.name n) (a.batches x.name v n) := by
  refine ⟨h.store_eq, ?_⟩
  have hthere : x ∈ xs.map fun x => (Content.batch w.store a.batchSize)^[steps x.name] x := Went.mem hx hnone _
  have hholds := h.holds.iterate_batch (s := w.store) hthere a.batchSize n
  have hput : Content.put ((Content.batch w.store a.batchSize)^[n] x)
      (xs.map fun x => (Content.batch w.store a.batchSize)^[steps x.name] x) =
      xs.map fun x' => (Content.batch w.store a.batchSize)^[Function.update steps x.name n x'.name] x' := by
    unfold Content.put
    rw [List.map_map]
    refine List.map_congr_left fun z hz => ?_
    rw [Function.comp_apply, Content.iterate_batch_name, Content.iterate_batch_name]
    by_cases hname : z.name = x.name
    · obtain rfl := Content.eq_of_name_eq hn hz hx hname
      rw [if_pos rfl, Function.update_self]
    · rw [if_neg hname, Function.update_of_ne hname]
  rw [hput] at hholds
  unfold Attempt.batches
  rw [h.store_eq]
  exact hholds

/-- The batches of each index after some indexes were done. -/
def done (a : Attempt) (s : Store) (steps : String → Nat) (ds : List Definition) : String → Nat :=
  ds.foldl (fun steps d => Function.update steps d.name (a.pages s d)) steps

theorem done_of_not_mem {name : String} (h : ∀ d ∈ ds, d.name ≠ name) (s : Store) (steps : String → Nat) :
    a.done s steps ds name = steps name := by
  induction ds generalizing steps with
  | nil => rfl
  | cons d rest ih =>
    have hrest := ih (fun e he => h e (List.mem_cons_of_mem _ he)) (Function.update steps d.name (a.pages s d))
    exact hrest.trans (Function.update_of_ne (h d List.mem_cons_self).symm _ _)

theorem done_of_mem {d : Definition} (hn : (ds.map (·.name)).Nodup) (hd : d ∈ ds) (s : Store)
    (steps : String → Nat) : a.done s steps ds d.name = a.pages s d := by
  induction ds generalizing steps with
  | nil => cases hd
  | cons e rest ih =>
    rw [List.map_cons, List.nodup_cons] at hn
    rcases List.mem_cons.mp hd with rfl | hd
    · have hrest : ∀ f ∈ rest, f.name ≠ d.name := fun f hf heq => hn.1 (heq ▸ List.mem_map_of_mem hf)
      exact (done_of_not_mem hrest s _).trans (Function.update_self _ _ _)
    · exact ih hn.2 hd _

/-- An update of several indexes makes the requests of all, or it breaks at a request of one of them when those before
it are done. -/
theorem after_each (hmeets : a.Meets v s) (hs : w.store.WellFormed) (hxs : (xs.map Content.name).Nodup)
    (h : Went a.batchSize w xs steps v) (hds : ∀ d ∈ ds, ∃ x ∈ xs, x.definition = d ∧ steps d.name = 0)
    (hn : (ds.map (·.name)).Nodup) :
    (Update.updateEach (Session.host a.patience) a.batchSize (ds.map (·.name))).After s
      (fun _ t => a.Answers (a.requests w.store ds) ∧ Went a.batchSize w xs (a.done w.store steps ds) t.world)
      fun e t => ∃ before d after r, ds = before ++ d :: after ∧ r ≤ a.pages w.store d ∧
        a.Breaks (a.requests w.store before + r) e ∧
        Went a.batchSize w xs (Function.update (a.done w.store steps before) d.name (r - 1)) t.world := by
  induction ds generalizing a v s steps with
  | nil =>
    refine Action.after_pure ⟨?_, ?_⟩
    · intro f? hf
      simp [requests] at hf
    · rw [hmeets.world_eq]
      exact h
  | cons d rest ih =>
    obtain ⟨x, hx, rfl, hnone⟩ := hds d List.mem_cons_self
    rw [List.map_cons, List.nodup_cons] at hn
    have hthere : x ∈ xs.map fun x => (Content.batch w.store a.batchSize)^[steps x.name] x := Went.mem hx hnone _
    have hindex := after_index hmeets (by rw [h.store_eq]; exact hs) h.holds hthere
    rw [h.store_eq] at hindex
    refine Action.after_bind (hindex.mono ?_ ?_)
    · rintro _ t ⟨hanswers, hnext⟩
      have hwent := h.batches hxs hx hnone (a.pages w.store x.definition)
      have hfresh : ∀ d ∈ rest, ∃ y ∈ xs, y.definition = d ∧
          Function.update steps x.name (a.pages w.store x.definition) d.name = 0 := by
        intro d hd
        obtain ⟨y, hy, hyd, hzero⟩ := hds d (List.mem_cons_of_mem _ hd)
        have hne : d.name ≠ x.name := fun heq => hn.1 (List.mem_map.mpr ⟨d, hd, heq⟩)
        exact ⟨y, hy, hyd, by rw [Function.update_of_ne hne]; exact hzero⟩
      have hrest := ih hnext hwent hfresh hn.2
      refine hrest.mono ?_ ?_
      · rintro _ u ⟨hlater, hdone⟩
        exact ⟨hanswers.add hlater, hdone⟩
      · rintro e u ⟨before, d, after, r, rfl, hr, hbreaks, hdone⟩
        refine ⟨x.definition :: before, d, after, r, rfl, hr, ?_, hdone⟩
        have hall := Breaks.add hanswers hbreaks
        rw [← Nat.add_assoc] at hall
        exact hall
    · rintro e t ⟨r, hr, hbreaks, hworld⟩
      refine ⟨[], x.definition, rest, r, rfl, hr, ?_, ?_⟩
      · have hfirst : a.requests w.store [] + r = r := Nat.zero_add r
        rw [hfirst]
        exact hbreaks
      · rw [hworld]
        exact h.batches hxs hx hnone (r - 1)

/-- A world shows of an index what any update of it alone that succeeds would show. Such an update does succeed if its
requests do not fail. -/
structure UpdatedAlone (index : String) (w t : World) : Prop where
  agrees : ∀ (b : Attempt) (c? : Option Int), (b.outcome index w).1 = .ok c? →
    (b.outcome index w).2.world.database.SameAt index t.database
  possible : ∀ b : Attempt, (∀ f? ∈ b.failures, f? = none) → Succeeds (b.outcome index w).1

theorem updatedAlone {t : World} {ys : List Content} (hs : w.store.WellFormed) (h : w.database.Holds xs) (hx : x ∈ xs)
    (ht : t.database.Holds ys) (hy : x.caughtUp w.store ∈ ys) : UpdatedAlone x.name w t := by
  have hleads : w.database.LeadsTo w.store (x.caughtUp w.store) xs x := ⟨h, hx, rfl⟩
  have hname := Content.caughtUp_name w.store x
  rw [← hname]
  refine ⟨fun b c? hok => ?_, fun b hanswered => exists_ok hs hleads hanswered⟩
  obtain ⟨_, _, _, zs, hafter⟩ := leadsTo_of_ok hs hleads hok
  exact hafter.holds.sameAt ht hafter.mem hy

theorem after_all (a : Attempt) (hs : w.store.WellFormed) (h : w.database.Holds xs)
    (hds : ds = Catalog.sorted (xs.map (·.definition))) :
    (Update.updateAll (Session.host a.patience) a.batchSize).After (a.session w)
      (fun _ t => a.Answers (a.requests w.store ds) ∧
        Went a.batchSize w xs (a.done w.store (fun _ => 0) ds) t.world)
      fun e t => ∃ before d after r, ds = before ++ d :: after ∧ r ≤ a.pages w.store d ∧
        a.Breaks (a.requests w.store before + r) e ∧
        Went a.batchSize w xs (Function.update (a.done w.store (fun _ => 0) before) d.name (r - 1)) t.world := by
  have hdefinitions : w.database.definitions = .ok ds := by
    rw [hds]
    exact h.definitions
  have hmem : ∀ d ∈ ds, ∃ x ∈ xs, x.definition = d ∧ (0 : Nat) = 0 := by
    intro d hd
    rw [hds] at hd
    obtain ⟨x, hx, hxd⟩ := Database.mem_sorted_iff.mp hd
    exact ⟨x, hx, hxd, rfl⟩
  have hn : (ds.map (·.name)).Nodup := by
    rw [hds]
    exact h.sorted_names_nodup
  unfold Update.updateAll
  exact Action.after_bind (Action.after_look hdefinitions
    (after_each ⟨rfl, rfl⟩ hs h.distinct (Went.start h a.batchSize) hmem hn))

theorem Went.sameAt {t : World} (ht : Went a.batchSize w xs steps t) (h : w.database.Holds xs) (hx : x ∈ xs)
    (hn : steps x.name = n) : (a.batches x.name w n).database.SameAt x.name t.database := by
  have hname := Content.iterate_batch_name w.store a.batchSize n x
  have hsame := (h.iterate_batch (s := w.store) hx a.batchSize n).sameAt ht.holds
    (Content.mem_put_self hx hname.symm) (Went.mem hx hn a.batchSize)
  rwa [hname] at hsame

theorem Went.mem_caughtUp (hs : w.store.WellFormed) (hx : x ∈ xs) (hn : steps x.name = a.pages w.store x.definition) :
    x.caughtUp w.store ∈ xs.map fun x => (Content.batch w.store a.batchSize)^[steps x.name] x := by
  rw [← Content.iterate_batch_pages hs a.batchSize x]
  exact Went.mem hx hn a.batchSize

theorem requests_split (a : Attempt) (s : Store) (before after : List Definition) (d : Definition) :
    a.requests s (before ++ d :: after) = a.requests s before + (a.pages s d + 1) + a.requests s after := by
  induction before with
  | nil =>
    have hnone : a.requests s [] = 0 := rfl
    rw [List.nil_append, requests_cons, hnone, Nat.zero_add]
  | cons e rest ih =>
    rw [List.cons_append, requests_cons, requests_cons, ih]
    omega

theorem sorted_bytes (h : w.database.Holds xs) :
    (Catalog.sorted (xs.map (·.definition))).Pairwise fun d e => bytes d.name < bytes e.name := by
  refine (Catalog.sorted_ascending h.names_nodup).imp_of_mem fun {d e} hd he hlt => ?_
  obtain ⟨x, hx, rfl⟩ := Database.mem_sorted_iff.mp hd
  obtain ⟨y, hy, rfl⟩ := Database.mem_sorted_iff.mp he
  exact bytes_lt_of_lt (h.valid x hx).name (h.valid y hy).name hlt

theorem Went.isolates {t : World} {before after : List Definition} {d : Definition} {r : Nat} (hs : w.store.WellFormed)
    (h : w.database.Holds xs) (hds : ∀ e ∈ before ++ d :: after, ∃ x ∈ xs, x.definition = e)
    (hn : ((before ++ d :: after).map (·.name)).Nodup)
    (ht : Went a.batchSize w xs (Function.update (a.done w.store (fun _ => 0) before) d.name (r - 1)) t) :
    (∀ e ∈ before, UpdatedAlone e.name w t) ∧
      (a.batches d.name w (r - 1)).database.SameAt d.name t.database ∧
      ∀ e ∈ after, w.database.SameAt e.name t.database := by
  rw [List.map_append, List.map_cons, List.nodup_append, List.nodup_cons] at hn
  obtain ⟨hbefore, ⟨hfresh, _⟩, hapart⟩ := hn
  refine ⟨fun e he => ?_, ?_, fun e he => ?_⟩
  · obtain ⟨x, hx, rfl⟩ := hds e (List.mem_append_left _ he)
    have hne : x.definition.name ≠ d.name := hapart _ (List.mem_map_of_mem he) _ List.mem_cons_self
    have hsteps : Function.update (a.done w.store (fun _ => 0) before) d.name (r - 1) x.definition.name =
        a.pages w.store x.definition := by
      rw [Function.update_of_ne hne]
      exact done_of_mem hbefore he w.store _
    exact updatedAlone hs h hx ht.holds (Went.mem_caughtUp (a := a) hs hx hsteps)
  · obtain ⟨x, hx, rfl⟩ := hds d (List.mem_append_right _ List.mem_cons_self)
    exact ht.sameAt h hx (Function.update_self _ _ _)
  · obtain ⟨x, hx, rfl⟩ := hds e (List.mem_append_right _ (List.mem_cons_of_mem _ he))
    have hne : x.definition.name ≠ d.name := fun heq => hfresh (heq ▸ List.mem_map_of_mem he)
    have hlater : ∀ b ∈ before, b.name ≠ x.definition.name := fun b hb =>
      hapart _ (List.mem_map_of_mem hb) _ (List.mem_cons_of_mem _ (List.mem_map_of_mem he))
    have hsteps : Function.update (a.done w.store (fun _ => 0) before) d.name (r - 1) x.definition.name = 0 := by
      rw [Function.update_of_ne hne]
      exact done_of_not_mem hlater w.store _
    exact ht.sameAt h hx hsteps

theorem Went.completes {t : World} {d : Definition} (hs : w.store.WellFormed) (h : w.database.Holds xs)
    (hds : ∀ d ∈ ds, ∃ x ∈ xs, x.definition = d) (hn : (ds.map (·.name)).Nodup)
    (ht : Went a.batchSize w xs (a.done w.store (fun _ => 0) ds) t) (hd : d ∈ ds) :
    UpdatedAlone d.name w t ∧
      t.database.catalog.lastSequence? d.name = .ok (some (max d.lastSequence w.store.sequence)) := by
  obtain ⟨x, hx, rfl⟩ := hds d hd
  have hsteps : a.done w.store (fun _ => 0) ds x.definition.name = a.pages w.store x.definition :=
    done_of_mem hn hd w.store _
  have hcaught := Went.mem_caughtUp (a := a) hs hx hsteps
  refine ⟨updatedAlone hs h hx ht.holds hcaught, ?_⟩
  have hlast := ht.holds.lastSequence? hcaught
  rwa [Content.caughtUp_name] at hlast

/-- An update of all indexes takes them in the order of the bytes of their names. It succeeds if and only if none of its
requests fails; each index is then as any update of it alone would leave it, and its checkpoint is the sequence of the
store, or was beyond that already. If a request is the first that fails, the update ends with that failure. The request
belongs to one index: those before it are as any update of each alone would leave them, it has kept the batches that its
requests before the failing one led to, and those after it are as they were. -/
theorem updateAll_isolates (a : Attempt) (w : World) (hs : w.store.WellFormed) (hdb : w.database.Orderly) :
    ∃ ds, w.database.definitions = .ok ds ∧ ds.Pairwise (fun d e => bytes d.name < bytes e.name) ∧
      (a.outcomeAll w).2.world.store = w.store ∧
      ((a.outcomeAll w).1 = .ok () ↔ a.Answers (a.requests w.store ds)) ∧
      ((a.outcomeAll w).1 = .ok () → ∀ d ∈ ds,
        UpdatedAlone d.name w (a.outcomeAll w).2.world ∧
        (a.outcomeAll w).2.world.database.catalog.lastSequence? d.name =
          .ok (some (max d.lastSequence w.store.sequence))) ∧
      ∀ n f, a.Answers n → a.failures[n]? = some (some f) → n < a.requests w.store ds →
        (a.outcomeAll w).1 = .error (.store f) ∧
        ∃ before d after r, ds = before ++ d :: after ∧ n = a.requests w.store before + r ∧ r ≤ a.pages w.store d ∧
          (∀ e ∈ before, UpdatedAlone e.name w (a.outcomeAll w).2.world) ∧
          (a.batches d.name w (r - 1)).database.SameAt d.name (a.outcomeAll w).2.world.database ∧
          ∀ e ∈ after, w.database.SameAt e.name (a.outcomeAll w).2.world.database := by
  obtain ⟨xs, h, _⟩ := hdb
  have hbytes := sorted_bytes h
  have hdefinitions := h.definitions
  have hn := h.sorted_names_nodup
  have hmem : ∀ d ∈ Catalog.sorted (xs.map (·.definition)), ∃ x ∈ xs, x.definition = d :=
    fun d hd => Database.mem_sorted_iff.mp hd
  have hafter := a.after_all hs h rfl
  generalize Catalog.sorted (xs.map (·.definition)) = ds at hbytes hdefinitions hn hmem hafter
  refine ⟨ds, hdefinitions, hbytes, ?_⟩
  unfold Action.After at hafter
  rcases hresult : a.outcomeAll w with ⟨r, t⟩
  unfold outcomeAll at hresult
  rw [hresult] at hafter
  cases r with
  | ok u =>
    obtain ⟨hanswers, hwent⟩ := hafter
    refine ⟨hwent.store_eq, ⟨fun _ => hanswers, fun _ => rfl⟩, fun _ d hd => hwent.completes hs h hmem hn hd, ?_⟩
    intro n f hfirst hf hlt
    have hle := hanswers.le_of_refused hf
    omega
  | error e =>
    obtain ⟨before, d, after, r, rfl, hr, hbreaks, hwent⟩ := hafter
    obtain ⟨f, hf, rfl⟩ := hbreaks.refused
    have hsum := a.requests_split w.store before after d
    refine ⟨hwent.store_eq, ⟨nofun, fun hanswers => ?_⟩, nofun, fun n g hfirst hg hlt => ?_⟩
    · have hle := hanswers.le_of_refused hf
      omega
    · have hle := hfirst.le_of_refused hf
      have hge := hbreaks.answers.le_of_refused hg
      obtain rfl : n = a.requests w.store before + r := Nat.le_antisymm hle hge
      rw [hf] at hg
      obtain rfl : f = g := Option.some.inj (Option.some.inj hg)
      exact ⟨rfl, before, d, after, r, rfl, rfl, hr, hwent.isolates hs h hmem hn⟩

/-- Two documents, and three indexes that have seen neither, created in no order. -/
def unseenByAll : World :=
  { store := Store.after {} [.create "ann" [("age", .number (.int 40))], .create "bob" [("name", .string "Bob")]]
    database := (World.run {}
      [.ensure { name := "towns", fields := [{ path := "town" }] } "" 0,
        .ensure { name := "ages", fields := [{ path := "age" }] } "" 0,
        .ensure { name := "names", fields := [{ path := "name" }] } "" 0]).database }

/-- Three requests for the first index are answered, and two for the second. -/
def interruptedAll : Attempt :=
  { batchSize := 1, failures := [none, none, none, none, none, some (.backend "lost")] }

/-- The second page of the second index fails: the first index has seen both documents, the second one, the third
none. -/
theorem updateAll_isolates_interrupted :
    unseenByAll.store.WellFormed ∧ unseenByAll.database.Orderly ∧
    (interruptedAll.outcomeAll unseenByAll).1 = .error (.store (.backend "lost")) ∧
    UpdatedAlone "ages" unseenByAll (interruptedAll.outcomeAll unseenByAll).2.world ∧
    (interruptedAll.batches "names" unseenByAll 1).database.SameAt "names"
      (interruptedAll.outcomeAll unseenByAll).2.world.database ∧
    unseenByAll.database.SameAt "towns" (interruptedAll.outcomeAll unseenByAll).2.world.database := by
  have hs : unseenByAll.store.WellFormed := Store.WellFormed.empty.after _
  have hdb : unseenByAll.database.Orderly := World.orderly_run .empty _
  have hall : unseenByAll.database.definitions.toOption =
      some [{ name := "ages", kind := .value, fields := [{ path := "age" }], lastSequence := 0 },
        { name := "names", kind := .value, fields := [{ path := "name" }], lastSequence := 0 },
        { name := "towns", kind := .value, fields := [{ path := "town" }], lastSequence := 0 }] := by
    decide +kernel
  obtain ⟨ds, hds, _, _, _, _, hfails⟩ := updateAll_isolates interruptedAll unseenByAll hs hdb
  rw [ok_of_toOption hall] at hds
  obtain rfl := Except.ok.inj hds
  have hfirst : interruptedAll.Answers 5 := by
    intro f? hf
    simpa [interruptedAll] using hf
  obtain ⟨herror, before, d, after, r, hsplit, hn, hr, hbefore, hat, hafter⟩ :=
    hfails 5 (.backend "lost") hfirst rfl (by decide +kernel)
  refine ⟨hs, hdb, herror, ?_⟩
  have hpages : ∀ d : Definition, d.lastSequence = 0 → interruptedAll.pages unseenByAll.store d = 2 := by
    intro d hd
    rw [pages, hd]
    decide +kernel
  have hnone : interruptedAll.requests unseenByAll.store [] = 0 := rfl
  rcases before with _ | ⟨b, _ | ⟨c, more⟩⟩
  · obtain ⟨rfl, rfl⟩ := List.cons.inj hsplit
    rw [hpages _ rfl] at hr
    omega
  · simp only [List.cons_append, List.nil_append, List.cons.injEq] at hsplit
    obtain ⟨rfl, rfl, rfl⟩ := hsplit
    rw [requests_cons, hpages _ rfl, hnone] at hn
    obtain rfl : r = 2 := by omega
    exact ⟨hbefore _ List.mem_cons_self, hat, hafter _ List.mem_cons_self⟩
  · simp only [List.cons_append, List.cons.injEq] at hsplit
    obtain ⟨rfl, rfl, _⟩ := hsplit
    rw [requests_cons, requests_cons, hpages _ rfl, hpages _ rfl] at hn
    omega

end Attempt

end DocIndex
