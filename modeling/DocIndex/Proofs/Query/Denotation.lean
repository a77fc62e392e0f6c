import DocIndex.Proofs.Query.Scans

/-! # What parts of plans denote

A part of a plan denotes a set of documents, whatever is read first and whatever is left unread because nothing can
come of it. Parts of the same in another order, once or several times, denote the same, over the same indexes and
searches. Where all tables can be read and all searches are accepted, the documents are found.
-/

namespace DocIndex

/-! ## What sets of documents mean -/

namespace IdSet

mutual

/-- A document is in the set, in whatever order parts of the set are read. -/
def Has (db : Database) (id : String) : IdSet → Prop
  | .rows table conditions => ∃ t rows, db.table? table = .ok t ∧ t.rows? = .ok rows ∧
      ∃ r ∈ rows, r.docId = id ∧ ∀ c ∈ conditions, c.holds t r = true
  | .matching table search => ∃ t rows, db.table? table = .ok t ∧ t.matching? search = .ok rows ∧
      ∃ r ∈ rows, r.docId = id
  | .without left right => Has db id left ∧ ¬ Has db id right
  | .intersect parts => parts ≠ [] ∧ AllHave db id parts
  | .union parts => AnyHas db id parts

def AllHave (db : Database) (id : String) : List IdSet → Prop
  | [] => True
  | s :: rest => Has db id s ∧ AllHave db id rest

def AnyHas (db : Database) (id : String) : List IdSet → Prop
  | [] => False
  | s :: rest => Has db id s ∨ AnyHas db id rest

end

variable {db : Database} {id : String} {sets : List IdSet}

theorem allHave_iff : AllHave db id sets ↔ ∀ s ∈ sets, Has db id s := by
  induction sets with
  | nil => simp [AllHave]
  | cons s rest ih => rw [AllHave, ih, List.forall_mem_cons]

theorem anyHas_iff : AnyHas db id sets ↔ ∃ s ∈ sets, Has db id s := by
  induction sets with
  | nil => simp [AnyHas]
  | cons s rest ih => rw [AnyHas, ih, List.exists_mem_cons_iff]

mutual

/-- A set that can be read lists the documents that are in it. What is left unread would take nothing away. -/
theorem mem_ids : ∀ (s : IdSet) {found : List String}, s.ids db = .ok found → (id ∈ found ↔ s.Has db id)
  | .rows table conditions, found, h => by
    obtain ⟨t, ht, h⟩ := ok_of_bind h
    obtain ⟨rows, hrows, h⟩ := ok_of_bind h
    obtain rfl := Except.ok.inj h
    simp only [Has, ht, hrows, Except.ok.injEq, exists_and_left, exists_eq_left', List.mem_map, List.mem_filter,
      List.all_eq_true]
    exact exists_congr fun r => and_right_comm.trans and_assoc
  | .matching table search, found, h => by
    obtain ⟨t, ht, h⟩ := ok_of_bind h
    obtain ⟨rows, hrows, h⟩ := ok_of_bind h
    obtain rfl := Except.ok.inj h
    simp [Has, ht, hrows]
  | .without left right, found, h => by
    obtain ⟨first, hfirst, h⟩ := ok_of_bind h
    rw [Has, ← mem_ids left hfirst]
    split at h
    · rename_i hnone
      obtain rfl := Except.ok.inj h
      simp [List.isEmpty_iff.mp hnone]
    · obtain ⟨others, hothers, h⟩ := ok_of_bind h
      obtain rfl := Except.ok.inj h
      rw [← mem_ids right hothers]
      simp
  | .intersect [], found, h => by
    obtain rfl := Except.ok.inj h
    simp [Has]
  | .intersect (first :: rest), found, h => by
    obtain ⟨start, hstart, h⟩ := ok_of_bind h
    rw [Has, AllHave, ← mem_ids first hstart, mem_common rest h]
    simp
  | .union parts, found, h => mem_together parts h

theorem mem_common : ∀ (sets : List IdSet) {start found : List String}, common db start sets = .ok found →
    (id ∈ found ↔ id ∈ start ∧ AllHave db id sets)
  | [], start, found, h => by
    obtain rfl := Except.ok.inj h
    simp [AllHave]
  | s :: rest, start, found, h => by
    rw [common] at h
    split at h
    · rename_i hnone
      obtain rfl := Except.ok.inj h
      simp [List.isEmpty_iff.mp hnone]
    · obtain ⟨others, hothers, h⟩ := ok_of_bind h
      rw [mem_common rest h, AllHave, ← mem_ids s hothers, List.mem_filter, List.contains_iff_mem, and_assoc]

theorem mem_together : ∀ (sets : List IdSet) {found : List String}, together db sets = .ok found →
    (id ∈ found ↔ AnyHas db id sets)
  | [], found, h => by
    obtain rfl := Except.ok.inj h
    simp [AnyHas]
  | s :: rest, found, h => by
    obtain ⟨first, hfirst, h⟩ := ok_of_bind h
    obtain ⟨more, hmore, h⟩ := ok_of_bind h
    obtain rfl := Except.ok.inj h
    rw [List.mem_append, mem_ids s hfirst, mem_together rest hmore, AnyHas]

end

/-- Two sets have the same documents in every database. -/
def Equivalent (left right : IdSet) : Prop := ∀ db id, left.Has db id ↔ right.Has db id

variable {left right : IdSet} {lefts rights : List IdSet}

theorem Equivalent.refl (s : IdSet) : s.Equivalent s := fun _ _ => Iff.rfl

theorem Equivalent.symm (h : left.Equivalent right) : right.Equivalent left := fun db id => (h db id).symm

theorem Equivalent.trans {other : IdSet} (h : left.Equivalent right) (h' : right.Equivalent other) :
    left.Equivalent other := fun db id => (h db id).trans (h' db id)

theorem equivalent_rows (table : String) {conditions others : List Predicate} (h : ∀ c, c ∈ conditions ↔ c ∈ others) :
    (IdSet.rows table conditions).Equivalent (.rows table others) := by
  intro db id
  simp only [Has, h]

theorem equivalent_intersect (h : Counterparts Equivalent lefts rights) :
    (intersect lefts).Equivalent (.intersect rights) := by
  intro db id
  rw [Has, Has, allHave_iff, allHave_iff, ne_eq, h.eq_nil_iff, h.forall_iff fun s t hst => hst db id]

theorem equivalent_union (h : Counterparts Equivalent lefts rights) : (union lefts).Equivalent (.union rights) := by
  intro db id
  rw [Has, Has, anyHas_iff, anyHas_iff, h.exists_iff fun s t hst => hst db id]

/-- All that the set names can be read. -/
inductive Readable (db : Database) : IdSet → Prop where
  | rows {table : String} (conditions : List Predicate) {t : Table} {rows : List Row} (ht : db.table? table = .ok t)
      (hrows : t.rows? = .ok rows) : Readable db (.rows table conditions)
  | matching {table search : String} {t : Table} {rows : List Row} (ht : db.table? table = .ok t)
      (hrows : t.matching? search = .ok rows) : Readable db (.matching table search)
  | without {left right : IdSet} (hl : Readable db left) (hr : Readable db right) : Readable db (.without left right)
  | intersect {parts : List IdSet} (h : ∀ s ∈ parts, Readable db s) : Readable db (.intersect parts)
  | union {parts : List IdSet} (h : ∀ s ∈ parts, Readable db s) : Readable db (.union parts)

theorem succeeds_common (h : ∀ s ∈ sets, Succeeds (s.ids db)) (found : List String) :
    Succeeds (common db found sets) := by
  induction sets generalizing found with
  | nil => exact succeeds_ok _
  | cons s rest ih =>
    rw [List.forall_mem_cons] at h
    rw [common]
    split
    · exact succeeds_ok _
    · obtain ⟨others, hothers⟩ := h.1
      rw [hothers]
      exact ih h.2 _

theorem succeeds_together (h : ∀ s ∈ sets, Succeeds (s.ids db)) : Succeeds (together db sets) := by
  induction sets with
  | nil => exact succeeds_ok _
  | cons s rest ih =>
    rw [List.forall_mem_cons] at h
    rw [together, succeeds_bind]
    obtain ⟨first, hfirst⟩ := h.1
    exact ⟨first, hfirst, (succeeds_bind_total fun _ => succeeds_ok _).mpr (ih h.2)⟩

theorem Readable.succeeds {s : IdSet} (h : s.Readable db) : Succeeds (s.ids db) := by
  induction h with
  | rows conditions ht hrows =>
    simp only [ids, ht, hrows, bind, Except.bind]
    exact succeeds_ok _
  | matching ht hrows =>
    simp only [ids, ht, hrows, bind, Except.bind]
    exact succeeds_ok _
  | without _ _ ihl ihr =>
    obtain ⟨found, hfound⟩ := ihl
    obtain ⟨others, hothers⟩ := ihr
    rw [ids, hfound]
    simp only [hothers, bind, Except.bind]
    split <;> exact succeeds_ok _
  | @intersect parts h ih =>
    cases parts with
    | nil => exact succeeds_ok _
    | cons first rest =>
      rw [List.forall_mem_cons] at ih
      obtain ⟨found, hfound⟩ := ih.1
      rw [ids, hfound]
      exact succeeds_common ih.2 found
  | union h ih => exact succeeds_together ih

end IdSet

/-! ## Compiling -/

namespace Compile

variable {d : Definition} {group group' : List (String × Condition)}

theorem predicates?_eq_mapM (d : Definition) (group : List (String × Condition)) :
    predicates? d group = group.mapM fun p => predicate? d p.1 p.2 := by
  induction group with
  | nil => rfl
  | cons p rest ih => rw [List.mapM_cons, ← ih]; rfl

theorem negatives?_eq_mapM (d : Definition) (group : List (String × Condition)) :
    negatives? d group = group.mapM fun p => negative? d p.1 p.2 := by
  induction group with
  | nil => rfl
  | cons p rest ih => rw [List.mapM_cons, ← ih]; rfl

theorem nodes?_eq_mapM (ns : List PlanNode) : nodes? ns = ns.mapM node? := by
  induction ns with
  | nil => rfl
  | cons n rest ih => rw [List.mapM_cons, ← ih]; rfl

theorem predicates?_agree (h : ∀ p, p ∈ group ↔ p ∈ group') :
    Agree (fun qs rs => ∀ q, q ∈ qs ↔ q ∈ rs) (predicates? d group) (predicates? d group') := by
  rw [predicates?_eq_mapM, predicates?_eq_mapM]
  have hsame := Counterparts.agree_mapM (.of_mem_iff (fun p => .refl (r := Eq) (fun _ => rfl) (predicate? d p.1 p.2)) h)
  exact hsame.mono fun _ _ hqs => hqs.mem_iff

theorem negatives?_agree (h : ∀ p, p ∈ group ↔ p ∈ group') :
    Agree (Counterparts IdSet.Equivalent) (negatives? d group) (negatives? d group') := by
  rw [negatives?_eq_mapM, negatives?_eq_mapM]
  exact Counterparts.agree_mapM (.of_mem_iff (fun _ => .refl IdSet.Equivalent.refl _) h)

theorem scan?_agree (h : ∀ p, p ∈ group ↔ p ∈ group') : Agree IdSet.Equivalent (scan? d group) (scan? d group') := by
  have hfilter : ∀ keep : String × Condition → Bool, ∀ p, p ∈ group.filter keep ↔ p ∈ group'.filter keep := by
    intro keep p
    rw [List.mem_filter, List.mem_filter, h p]
  have hpositive := hfilter (!·.2.isNegative)
  have hnegative := hfilter (·.2.isNegative)
  have hempty : ∀ {xs ys : List (String × Condition)}, (∀ p, p ∈ xs ↔ p ∈ ys) → xs.isEmpty = ys.isEmpty :=
    fun hxs => (Counterparts.of_mem_iff (fun _ => rfl) hxs).isEmpty_eq
  have hjoin : ∀ {rows rows' : List IdSet}, Counterparts IdSet.Equivalent rows rows' →
      Agree IdSet.Equivalent
        (do .ok (.intersect (rows ++ (← negatives? d (group.filter (·.2.isNegative))))) : Except QueryError IdSet)
        (do .ok (.intersect (rows' ++ (← negatives? d (group'.filter (·.2.isNegative))))) : Except QueryError IdSet) :=
    fun hr => (negatives?_agree hnegative).bind fun _ _ hs => .ok (IdSet.equivalent_intersect (hr.append hs))
  unfold scan?
  simp only [hempty hpositive, hempty hnegative]
  split
  · exact hjoin (.refl IdSet.Equivalent.refl [])
  · exact (predicates?_agree hpositive).bind fun qs rs hqs => hjoin (.singleton (IdSet.equivalent_rows d.tableName hqs))

section

variable {db : Database} {t : Table} {rows : List Row} {s : IdSet}

theorem readable_of_negative? {path : String} {c : Condition} (ht : db.table? d.tableName = .ok t)
    (hrows : t.rows? = .ok rows) (h : negative? d path c = .ok s) : s.Readable db := by
  unfold negative? at h
  obtain ⟨column, _, h⟩ := ok_of_bind h
  split at h
  · obtain ⟨q, _, h⟩ := ok_of_bind h
    obtain rfl := Except.ok.inj h
    exact .without (.rows _ ht hrows) (.rows _ ht hrows)
  · obtain rfl := Except.ok.inj h
    exact .without (.rows _ ht hrows) (.rows _ ht hrows)

theorem readable_of_scan? (ht : db.table? d.tableName = .ok t) (hrows : t.rows? = .ok rows)
    (h : scan? d group = .ok s) : s.Readable db := by
  have hjoin : ∀ {first : List IdSet}, (∀ set ∈ first, set.Readable db) →
      (do .ok (.intersect (first ++ (← negatives? d (group.filter (·.2.isNegative))))) : Except QueryError IdSet) =
        .ok s → s.Readable db := by
    intro first hfirst h
    obtain ⟨sets, hsets, h⟩ := ok_of_bind h
    obtain rfl := Except.ok.inj h
    rw [negatives?_eq_mapM] at hsets
    refine .intersect (List.forall_mem_append.mpr ⟨hfirst, fun set hset => ?_⟩)
    obtain ⟨p, _, hp⟩ := (mem_of_mapM hsets set).mp hset
    exact readable_of_negative? ht hrows hp
  unfold scan? at h
  simp only at h
  split at h
  · exact hjoin (by simp) h
  · obtain ⟨qs, _, h⟩ := ok_of_bind h
    exact hjoin (by simpa using .rows qs ht hrows) h

end

end Compile

/-! ## Parts of plans -/

/-- The tables that a part of a plan scans can be read, and its searches are accepted. -/
structure Database.Reads (db : Database) (n : PlanNode) : Prop where
  scans : ∀ d ∈ n.scans, ∃ t rows, db.table? d.tableName = .ok t ∧ t.rows? = .ok rows
  searches : ∀ s ∈ n.searches, db.Accepts s.1 s.2

namespace PlanNode

variable {n m : PlanNode} {ns ms : List PlanNode}

theorem mem_scansOf {d : Definition} : d ∈ scansOf ns ↔ ∃ n ∈ ns, d ∈ n.scans := by
  induction ns with
  | nil => simp [scansOf]
  | cons n rest ih => rw [scansOf, List.mem_append, ih, List.exists_mem_cons_iff]

theorem mem_searchesOf {s : Definition × String} : s ∈ searchesOf ns ↔ ∃ n ∈ ns, s ∈ n.searches := by
  induction ns with
  | nil => simp [searchesOf]
  | cons n rest ih => rw [searchesOf, List.mem_append, ih, List.exists_mem_cons_iff]

/-- Two parts of plans scan the same indexes, ask for the same texts, and are compiled to sets of the same documents. -/
structure Equivalent (n m : PlanNode) : Prop where
  scans : ∀ d, d ∈ n.scans ↔ d ∈ m.scans
  searches : ∀ s, s ∈ n.searches ↔ s ∈ m.searches
  sets : Agree IdSet.Equivalent (Compile.node? n) (Compile.node? m)

theorem Equivalent.refl (n : PlanNode) : n.Equivalent n :=
  ⟨fun _ => Iff.rfl, fun _ => Iff.rfl, .refl IdSet.Equivalent.refl _⟩

theorem Equivalent.symm (h : n.Equivalent m) : m.Equivalent n :=
  ⟨fun d => (h.scans d).symm, fun s => (h.searches s).symm, h.sets.symm fun _ _ => IdSet.Equivalent.symm⟩

theorem Equivalent.trans {l : PlanNode} (h : n.Equivalent m) (h' : m.Equivalent l) : n.Equivalent l :=
  ⟨fun d => (h.scans d).trans (h'.scans d), fun s => (h.searches s).trans (h'.searches s),
    h.sets.trans (fun _ _ _ => IdSet.Equivalent.trans) h'.sets⟩

theorem equivalent_scan (d : Definition) {group group' : List (String × Condition)} (h : ∀ p, p ∈ group ↔ p ∈ group') :
    (PlanNode.scan d group).Equivalent (.scan d group') :=
  ⟨fun _ => Iff.rfl, fun _ => Iff.rfl, Compile.scan?_agree h⟩

theorem equivalent_parts (h : Counterparts Equivalent ns ms) :
    (∀ d, d ∈ scansOf ns ↔ d ∈ scansOf ms) ∧ (∀ s, s ∈ searchesOf ns ↔ s ∈ searchesOf ms) ∧
      Agree (Counterparts IdSet.Equivalent) (Compile.nodes? ns) (Compile.nodes? ms) := by
  refine ⟨fun d => ?_, fun s => ?_, ?_⟩
  · rw [mem_scansOf, mem_scansOf]
    exact h.exists_iff fun n m hnm => hnm.scans d
  · rw [mem_searchesOf, mem_searchesOf]
    exact h.exists_iff fun n m hnm => hnm.searches s
  · rw [Compile.nodes?_eq_mapM, Compile.nodes?_eq_mapM]
    exact Counterparts.agree_mapM (h.mono fun _ _ hnm => hnm.sets)

theorem equivalent_and (h : Counterparts Equivalent ns ms) : (PlanNode.and ns).Equivalent (.and ms) := by
  obtain ⟨hscans, hsearches, hsets⟩ := equivalent_parts h
  exact ⟨hscans, hsearches, hsets.bind fun _ _ hs => .ok (IdSet.equivalent_intersect hs)⟩

theorem equivalent_or (h : Counterparts Equivalent ns ms) : (PlanNode.or ns).Equivalent (.or ms) := by
  obtain ⟨hscans, hsearches, hsets⟩ := equivalent_parts h
  exact ⟨hscans, hsearches, hsets.bind fun _ _ hs => .ok (IdSet.equivalent_union hs)⟩

theorem equivalent_and_singleton (n : PlanNode) : n.Equivalent (.and [n]) := by
  refine ⟨fun d => by simp [scans, scansOf], fun s => by simp [searches, searchesOf], ?_⟩
  rw [Compile.node?, Compile.nodes?, Compile.nodes?]
  cases Compile.node? n with
  | ok s => exact .ok fun db id => by simp [IdSet.Has, IdSet.AllHave]
  | error e => exact .error e e

theorem equivalent_intersection (h : Counterparts Equivalent ns ms) :
    (Planner.intersection ns).Equivalent (Planner.intersection ms) := by
  have hand : ∀ ns, (Planner.intersection ns).Equivalent (.and ns) := by
    intro ns
    rcases ns with _ | ⟨n, _ | ⟨m, rest⟩⟩
    · exact .refl _
    · exact equivalent_and_singleton n
    · exact .refl _
  exact ((hand ns).trans (equivalent_and h)).trans (hand ms).symm

theorem Equivalent.reads_iff (h : n.Equivalent m) (db : Database) : db.Reads n ↔ db.Reads m := by
  constructor
  · exact fun hn => ⟨fun d hd => hn.scans d ((h.scans d).mpr hd), fun s hs => hn.searches s ((h.searches s).mpr hs)⟩
  · exact fun hm => ⟨fun d hd => hm.scans d ((h.scans d).mp hd), fun s hs => hm.searches s ((h.searches s).mp hs)⟩

mutual

theorem readable_of_node? {db : Database} : ∀ (n : PlanNode) {s : IdSet}, db.Reads n → Compile.node? n = .ok s →
    s.Readable db
  | .scan d group, s, hn, h => by
    obtain ⟨t, rows, ht, hrows⟩ := hn.scans d (List.mem_singleton_self d)
    exact Compile.readable_of_scan? ht hrows h
  | .text d search, s, hn, h => by
    obtain ⟨t, rows, ht, hrows⟩ := hn.searches (d, search) (List.mem_singleton_self _)
    obtain rfl := Except.ok.inj h
    exact .matching ht hrows
  | .and ns, s, hn, h => by
    obtain ⟨sets, hsets, h⟩ := ok_of_bind h
    obtain rfl := Except.ok.inj h
    exact .intersect (readable_of_nodes? ns hn.scans hn.searches hsets)
  | .or ns, s, hn, h => by
    obtain ⟨sets, hsets, h⟩ := ok_of_bind h
    obtain rfl := Except.ok.inj h
    exact .union (readable_of_nodes? ns hn.scans hn.searches hsets)

theorem readable_of_nodes? {db : Database} : ∀ (ns : List PlanNode) {sets : List IdSet},
    (∀ d ∈ scansOf ns, ∃ t rows, db.table? d.tableName = .ok t ∧ t.rows? = .ok rows) →
    (∀ s ∈ searchesOf ns, db.Accepts s.1 s.2) →
    Compile.nodes? ns = .ok sets → ∀ s ∈ sets, s.Readable db
  | [], sets, _, _, h => by
    obtain rfl := Except.ok.inj h
    simp
  | n :: rest, sets, hscans, hsearches, h => by
    rw [scansOf, List.forall_mem_append] at hscans
    rw [searchesOf, List.forall_mem_append] at hsearches
    obtain ⟨first, hfirst, h⟩ := ok_of_bind h
    obtain ⟨more, hmore, h⟩ := ok_of_bind h
    obtain rfl := Except.ok.inj h
    exact List.forall_mem_cons.mpr ⟨readable_of_node? n ⟨hscans.1, hsearches.1⟩ hfirst,
      readable_of_nodes? rest hscans.2 hsearches.2 hmore⟩

end

end PlanNode

end DocIndex
