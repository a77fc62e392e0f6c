import DocIndex.Proofs.Maintenance.Visits
import DocIndex.Proofs.Query.Grammar
import DocIndex.Proofs.Query.Scans
import Mathlib.Data.Set.Lattice

/-! # Laws of operators

The documents that a condition finds and those that its negation finds share out the documents with a value of the
field, whether or not the column admits the operands and however many rows a document has. A list finds what one of its
values finds, a comparison that includes equality what its two parts find. Negative conditions take documents away and
positive ones look at rows, so none of this holds by the form of the statements.
-/

namespace DocIndex

/-! ## What operators are read as -/

namespace Condition

variable {path key : String} {v : Json} {vs : List Json} {c : Condition}

/-- A condition that an operator on the field is read as. -/
def IsRead (path : String) (c : Condition) : Prop := ∃ key v, ofJson? path key v = .ok c

theorem IsRead.requested (h : c.IsRead path) : c.Requested := by
  obtain ⟨key, v, h⟩ := h
  exact ofJson?_requested path key v h

theorem operands?_eq (h : ∀ v ∈ vs, v.isComparable = true) : operands? path vs = .ok vs := by
  induction vs with
  | nil => rfl
  | cons v rest ih =>
    rw [List.forall_mem_cons] at h
    have hfirst : operand? path v = .ok v := if_pos h.1
    simp only [operands?, hfirst, ih h.2, bind, Except.bind]

/-- Operators that compare with one value, and what they are read as. -/
def comparisons : List (String × (Json → Condition)) :=
  [("$eq", .compare .eq), ("$lt", .compare .lt), ("$lte", .compare .lte), ("$gt", .compare .gt),
    ("$gte", .compare .gte), ("$ne", fun v => .not (.compare .eq v))]

theorem ofJson?_comparison {read : Json → Condition} (hkey : (key, read) ∈ comparisons) (h : v.isComparable = true) :
    ofJson? path key v = .ok (read v) := by
  have hread : ∀ op, comparison? path op v = .ok (.compare op v) := by
    intro op
    have hoperand : operand? path v = .ok v := if_pos h
    rw [comparison?, hoperand]
    rfl
  rw [ofJson?.eq_def]
  simp only [comparisons, List.mem_cons, List.not_mem_nil, or_false, Prod.mk.injEq] at hkey
  rcases hkey with ⟨rfl, rfl⟩ | ⟨rfl, rfl⟩ | ⟨rfl, rfl⟩ | ⟨rfl, rfl⟩ | ⟨rfl, rfl⟩ | ⟨rfl, rfl⟩ <;>
    simp [hread, Except.map, negate]

theorem ofJson?_in (h : ∀ v ∈ vs, v.isComparable = true) : ofJson? path "$in" (.array vs) = .ok (.oneOf vs) := by
  simp [ofJson?, membership?, operands?_eq h, Except.map]

theorem ofJson?_nin (h : ∀ v ∈ vs, v.isComparable = true) :
    ofJson? path "$nin" (.array vs) = .ok (.not (.oneOf vs)) := by
  simp [ofJson?, membership?, operands?_eq h, Except.map, negate]

theorem ofJson?_exists (expected : Bool) : ofJson? path "$exists" (.bool expected) = .ok (.present expected) := by
  simp [ofJson?]

theorem isOperatorKey_of_ofJson? (h : ofJson? path key v = .ok c) : isOperatorKey key = true :=
  isOperatorKey_of_isOperator (succeeds_ofJson?.mp ⟨c, h⟩)

theorem ofJson?_not (hkey : isOperatorKey key = true) (h : ofJson? path key v = .ok c) :
    ofJson? path "$not" (.object [(key, v)]) = .ok c.negate := by
  simp [ofJson?.eq_def path "$not", hkey, h, Except.map]

theorem Requested.row_or_negate (h : c.Requested) :
    ∃ p : Condition, p.Requested ∧ p.isNegative = false ∧ p.negate.isNegative = true ∧ p.negate.negate = p ∧
      (c = p ∨ c = p.negate) := by
  have hcomparing : ∀ p : Condition, p.Comparing →
      p.isNegative = false ∧ p.negate.isNegative = true ∧ p.negate.negate = p ∧ p.negate = .not p := by
    rintro p (_ | _) <;> exact ⟨rfl, rfl, rfl, rfl⟩
  cases h with
  | comparing h =>
    obtain ⟨hrow, hnegative, htwice, _⟩ := hcomparing c h
    exact ⟨c, .comparing h, hrow, hnegative, htwice, Or.inl rfl⟩
  | @not p h =>
    obtain ⟨hrow, hnegative, htwice, hnot⟩ := hcomparing p h
    exact ⟨p, .comparing h, hrow, hnegative, htwice, Or.inr hnot.symm⟩
  | present expected =>
    refine ⟨.present true, .present true, rfl, rfl, rfl, ?_⟩
    cases expected
    · exact Or.inr rfl
    · exact Or.inl rfl

theorem Requested.negate_negate (h : c.Requested) : c.negate.negate = c := by
  obtain ⟨p, _, _, _, htwice, rfl | rfl⟩ := h.row_or_negate
  · exact htwice
  · rw [htwice]

end Condition

/-! ## What conditions find -/

namespace Table

variable {t : Table} {d : Definition} {path : String} {c : Condition} {id : String}

/-- The documents that a condition and its negation share out: those with a value of the field, and all documents if the
condition asks whether there is one. -/
def domain (t : Table) (d : Definition) (path : String) : Condition → Set String
  | .present _ => {id | ∃ r ∈ t.rows, r.docId = id}
  | _ => {id | ∃ r ∈ t.rows, r.docId = id ∧ (t.cellAt d r path).isNull = false}

theorem finds_row (hc : c.isNegative = false) :
    t.Finds d [(path, c)] id ↔ ∃ r ∈ t.rows, r.docId = id ∧ c.Matches d path (t.cellAt d r path) := by
  constructor
  · rintro ⟨⟨r, hr, hid, hall⟩, _⟩
    exact ⟨r, hr, hid, hall _ List.mem_cons_self hc⟩
  · rintro ⟨r, hr, hid, hmatches⟩
    refine ⟨⟨r, hr, hid, fun p hp _ => ?_⟩, fun p hp hnegative => ?_⟩
    · rw [List.mem_singleton.mp hp]
      exact hmatches
    · rw [List.mem_singleton.mp hp, hc] at hnegative
      cases hnegative

theorem finds_leaves (hc : c.isNegative = true) : t.Finds d [(path, c)] id ↔ t.Leaves d path id c := by
  refine ⟨fun h => h.leaves _ List.mem_cons_self hc, fun h => ⟨?_, fun p hp _ => ?_⟩⟩
  · obtain ⟨r, hr, hid⟩ := h.exists_row hc
    refine ⟨r, hr, hid, fun p hp hpositive => ?_⟩
    rw [List.mem_singleton.mp hp, hc] at hpositive
    cases hpositive
  · rw [List.mem_singleton.mp hp]
    exact h

theorem domain_negate (hc : c.isNegative = false) : t.domain d path c.negate = t.domain d path c := by
  cases c with
  | not inner => cases hc
  | _ => rfl

end Table

theorem Condition.Matches.isNull {d : Definition} {path : String} {cell : SqlValue} {c : Condition}
    (h : c.Matches d path cell) : cell.isNull = false := by
  cases c with
  | compare op v => exact h.1
  | oneOf vs => exact h.1
  | present expected => exact h
  | not inner => exact h.elim

namespace Database

variable {db : Database} {d : Definition} {t : Table} {path key : String} {c : Condition} {v : Json} {vs : List Json}
variable {id : String}

/-- Scan an index for documents that match a condition on a field. -/
def found? (db : Database) (d : Definition) (path : String) (c : Condition) : Except QueryError (List String) := do
  let ids ← Compile.scan? d [(path, c)]
  lift (ids.ids db)

def found (db : Database) (d : Definition) (path : String) (c : Condition) : Set String :=
  {id | ∃ ids, db.found? d path c = .ok ids ∧ id ∈ ids}

def asked (db : Database) (d : Definition) (path key : String) (v : Json) : Set String :=
  {id | ∃ c, Condition.ofJson? path key v = .ok c ∧ id ∈ db.found d path c}

theorem asked_eq (h : Condition.ofJson? path key v = .ok c) : db.asked d path key v = db.found d path c := by
  ext id
  simp [asked, h]

theorem asked_comparison (key : String) (read : Json → Condition) (hkey : (key, read) ∈ Condition.comparisons)
    (hv : v.isComparable = true) : db.asked d path key v = db.found d path (read v) :=
  asked_eq (Condition.ofJson?_comparison hkey hv)

/-- The laws of operators on a field of an index that is kept in this table. -/
structure OperatorLaws (db : Database) (d : Definition) (t : Table) (path : String) : Prop where
  answered : ∀ c : Condition, c.IsRead path → ∃ ids, db.found? d path c = .ok ids
  negate : ∀ c : Condition, c.IsRead path → db.found d path c.negate = t.domain d path c \ db.found d path c
  disjoint : ∀ c : Condition, c.IsRead path → db.found d path c ∩ db.found d path c.negate = ∅
  cover : ∀ c : Condition, c.IsRead path → db.found d path c ∪ db.found d path c.negate = t.domain d path c
  twice : ∀ c : Condition, c.IsRead path → c.negate.negate = c
  /-- What is written before an operator is the negation of what it is read as, whatever it begins with itself. -/
  not : ∀ key v c, Condition.ofJson? path key v = .ok c →
    Condition.ofJson? path "$not" (.object [(key, v)]) = .ok c.negate
  oneOf : ∀ vs : List Json, (∀ v ∈ vs, v.isComparable = true) →
    db.asked d path "$in" (.array vs) = ⋃ v ∈ vs, db.asked d path "$eq" v
  noneOf : ∀ vs : List Json, vs ≠ [] → (∀ v ∈ vs, v.isComparable = true) →
    db.asked d path "$nin" (.array vs) = ⋂ v ∈ vs, db.asked d path "$ne" v
  oneOf_nil : db.asked d path "$in" (.array []) = ∅
  noneOf_nil : db.asked d path "$nin" (.array []) = db.asked d path "$exists" (.bool true)
  lte : ∀ v : Json, v.isComparable = true →
    db.asked d path "$lte" v = db.asked d path "$lt" v ∪ db.asked d path "$eq" v
  gte : ∀ v : Json, v.isComparable = true →
    db.asked d path "$gte" v = db.asked d path "$gt" v ∪ db.asked d path "$eq" v

section

variable (ht : db.table? d.tableName = .ok t) (hrows : t.rows? = .ok t.rows) (hcovers : d.covers path = true)

include ht hrows hcovers

theorem found?_eq (hc : c.Requested) :
    ∃ ids, db.found? d path c = .ok ids ∧ ∀ id, id ∈ ids ↔ t.Finds d [(path, c)] id := by
  have htakes : d.Takes [(path, c)] := ⟨by simpa using hcovers, by simpa using hc⟩
  obtain ⟨_, ids, hids, hmem⟩ := Compile.scan_lists ht hrows htakes
  exact ⟨ids, by simp only [found?, Compile.scan?_eq htakes, hids, bind, Except.bind, lift], hmem⟩

theorem mem_found (hc : c.Requested) : id ∈ db.found d path c ↔ t.Finds d [(path, c)] id := by
  obtain ⟨ids, hids, hmem⟩ := found?_eq ht hrows hcovers hc
  simp [found, hids, hmem]

theorem mem_found_row (hc : c.Requested) (hrow : c.isNegative = false) :
    id ∈ db.found d path c ↔ ∃ r ∈ t.rows, r.docId = id ∧ c.Matches d path (t.cellAt d r path) := by
  rw [mem_found ht hrows hcovers hc, Table.finds_row hrow]

theorem found_subset_row (hc : c.Requested) (hrow : c.isNegative = false) :
    db.found d path c ⊆ t.domain d path c := by
  intro id hid
  obtain ⟨r, hr, hdoc, hmatches⟩ := (mem_found_row ht hrows hcovers hc hrow).mp hid
  cases c with
  | present expected => exact ⟨r, hr, hdoc⟩
  | _ => exact ⟨r, hr, hdoc, hmatches.isNull⟩

theorem found_negate_row (hc : c.Requested) (hrow : c.isNegative = false) (hnegative : c.negate.isNegative = true) :
    db.found d path c.negate = t.domain d path c \ db.found d path c := by
  ext id
  rw [Set.mem_sdiff, mem_found ht hrows hcovers hc.negate, Table.finds_leaves hnegative,
    mem_found_row ht hrows hcovers hc hrow]
  cases c with
  | compare op v => exact Iff.rfl
  | oneOf vs => exact Iff.rfl
  | present expected => exact Iff.rfl
  | not inner => cases hrow

/-- A condition and its negation share out the documents that they are about. -/
theorem found_negate (hc : c.Requested) :
    db.found d path c ⊆ t.domain d path c ∧
      db.found d path c.negate = t.domain d path c \ db.found d path c := by
  obtain ⟨p, hp, hrow, hnegative, htwice, rfl | rfl⟩ := hc.row_or_negate
  · exact ⟨found_subset_row ht hrows hcovers hp hrow, found_negate_row ht hrows hcovers hp hrow hnegative⟩
  · have hsubset := found_subset_row ht hrows hcovers hp hrow
    rw [htwice, found_negate_row ht hrows hcovers hp hrow hnegative, Table.domain_negate hrow]
    exact ⟨Set.sdiff_subset, (Set.sdiff_sdiff_cancel_left hsubset).symm⟩

theorem mem_found_compare (op : Operator) (hv : v.isComparable = true) :
    id ∈ db.found d path (.compare op v) ↔
      ∃ r ∈ t.rows, r.docId = id ∧ (Condition.compare op v).Matches d path (t.cellAt d r path) :=
  mem_found_row ht hrows hcovers (.comparing (.compare op v hv)) rfl

theorem found_oneOf (hvs : ∀ v ∈ vs, v.isComparable = true) :
    db.found d path (.oneOf vs) = ⋃ v ∈ vs, db.found d path (.compare .eq v) := by
  ext id
  simp only [Set.mem_iUnion, exists_prop]
  rw [mem_found_row ht hrows hcovers (.comparing (.oneOf vs hvs)) rfl]
  constructor
  · rintro ⟨r, hr, hid, hnull, v, hv, hadmits, horder⟩
    refine ⟨v, hv, (mem_found_compare ht hrows hcovers .eq (hvs v hv)).mpr ⟨r, hr, hid, hnull, hadmits, ?_⟩⟩
    rw [horder]
    rfl
  · rintro ⟨v, hv, hfound⟩
    obtain ⟨r, hr, hid, hnull, hadmits, horder⟩ := (mem_found_compare ht hrows hcovers .eq (hvs v hv)).mp hfound
    exact ⟨r, hr, hid, hnull, v, hv, hadmits, beq_iff_eq.mp horder⟩

theorem found_not_oneOf (hne : vs ≠ []) (hvs : ∀ v ∈ vs, v.isComparable = true) :
    db.found d path (.not (.oneOf vs)) = ⋂ v ∈ vs, db.found d path (.not (.compare .eq v)) := by
  have hlist := (found_negate ht hrows hcovers (.comparing (.oneOf vs hvs))).2
  have hvalue : ∀ v ∈ vs, db.found d path (.not (.compare .eq v)) =
      t.domain d path (.oneOf vs) \ db.found d path (.compare .eq v) :=
    fun v hv => (found_negate ht hrows hcovers (.comparing (.compare .eq v (hvs v hv)))).2
  obtain ⟨first, hfirst⟩ := List.exists_mem_of_ne_nil vs hne
  calc db.found d path (.not (.oneOf vs))
      = t.domain d path (.oneOf vs) \ ⋃ v ∈ vs, db.found d path (.compare .eq v) := by
        rw [← found_oneOf ht hrows hcovers hvs]
        exact hlist
    _ = ⋂ v ∈ vs, t.domain d path (.oneOf vs) \ db.found d path (.compare .eq v) := by
        ext id
        simp only [Set.mem_sdiff, Set.mem_iUnion, Set.mem_iInter, not_exists]
        exact ⟨fun h v hv => ⟨h.1, h.2 v hv⟩, fun h => ⟨(h first hfirst).1, fun v hv => (h v hv).2⟩⟩
    _ = ⋂ v ∈ vs, db.found d path (.not (.compare .eq v)) := (Set.iInter₂_congr hvalue).symm

theorem found_weak {weak strict : Operator}
    (hadmits : ∀ o, weak.admits o = (strict.admits o || Operator.eq.admits o)) (hv : v.isComparable = true) :
    db.found d path (.compare weak v) = db.found d path (.compare strict v) ∪ db.found d path (.compare .eq v) := by
  ext id
  rw [Set.mem_union, mem_found_compare ht hrows hcovers _ hv, mem_found_compare ht hrows hcovers _ hv,
    mem_found_compare ht hrows hcovers _ hv]
  simp only [Condition.Matches, hadmits, Bool.or_eq_true, and_or_left, exists_or]

theorem operatorLaws : db.OperatorLaws d t path where
  answered c hc := by
    obtain ⟨ids, hids, _⟩ := found?_eq ht hrows hcovers hc.requested
    exact ⟨ids, hids⟩
  negate c hc := (found_negate ht hrows hcovers hc.requested).2
  disjoint c hc := by
    rw [(found_negate ht hrows hcovers hc.requested).2]
    exact Set.inter_sdiff_self _ _
  cover c hc := by
    obtain ⟨hsubset, hnegate⟩ := found_negate ht hrows hcovers hc.requested
    rw [hnegate]
    exact Set.union_sdiff_cancel hsubset
  twice c hc := hc.requested.negate_negate
  not key v c h := Condition.ofJson?_not (Condition.isOperatorKey_of_ofJson? h) h
  oneOf vs hvs := by
    have heq : ∀ v ∈ vs, db.asked d path "$eq" v = db.found d path (.compare .eq v) :=
      fun v hv => asked_comparison "$eq" (.compare .eq) (by simp [Condition.comparisons]) (hvs v hv)
    rw [asked_eq (Condition.ofJson?_in hvs), found_oneOf ht hrows hcovers hvs]
    exact (Set.iUnion₂_congr heq).symm
  noneOf vs hne hvs := by
    have hother : ∀ v ∈ vs, db.asked d path "$ne" v = db.found d path (.not (.compare .eq v)) :=
      fun v hv => asked_comparison "$ne" (fun v => .not (.compare .eq v)) (by simp [Condition.comparisons]) (hvs v hv)
    rw [asked_eq (Condition.ofJson?_nin hvs), found_not_oneOf ht hrows hcovers hne hvs]
    exact (Set.iInter₂_congr hother).symm
  oneOf_nil := by
    rw [asked_eq (Condition.ofJson?_in (by simp)), found_oneOf ht hrows hcovers (by simp)]
    simp
  noneOf_nil := by
    have hnone : (.oneOf [] : Condition).Requested := .comparing (.oneOf [] (by simp))
    have hempty : db.found d path (.oneOf []) = ∅ := by
      rw [found_oneOf ht hrows hcovers (by simp)]
      simp
    rw [asked_eq (Condition.ofJson?_nin (by simp)), asked_eq (Condition.ofJson?_exists true)]
    calc db.found d path (.not (.oneOf []))
        = t.domain d path (.oneOf []) \ db.found d path (.oneOf []) := (found_negate ht hrows hcovers hnone).2
      _ = t.domain d path (.oneOf []) := by rw [hempty, Set.sdiff_empty]
      _ = db.found d path (.present true) := by
        ext id
        exact (mem_found_row ht hrows hcovers (.present true) rfl).symm
  lte v hv := by
    rw [asked_comparison "$lte" (.compare .lte) (by simp [Condition.comparisons]) hv,
      asked_comparison "$lt" (.compare .lt) (by simp [Condition.comparisons]) hv,
      asked_comparison "$eq" (.compare .eq) (by simp [Condition.comparisons]) hv]
    exact found_weak ht hrows hcovers (by decide) hv
  gte v hv := by
    rw [asked_comparison "$gte" (.compare .gte) (by simp [Condition.comparisons]) hv,
      asked_comparison "$gt" (.compare .gt) (by simp [Condition.comparisons]) hv,
      asked_comparison "$eq" (.compare .eq) (by simp [Condition.comparisons]) hv]
    exact found_weak ht hrows hcovers (by decide) hv

end

end Database

namespace World

/-- After any visits to an empty database, the operators on every field of every index obey the laws, over the table
of the index as it is. -/
theorem visited_operators (visits : List Visit) :
    ∃ definitions, (visited {} visits).database.definitions = .ok definitions ∧ ∀ d ∈ definitions,
      ∃ t, (visited {} visits).database.table? d.tableName = .ok t ∧
        ∀ path, d.covers path = true → (visited {} visits).database.OperatorLaws d t path := by
  obtain ⟨xs, hholds, _⟩ := orderly_visited (w := {}) .empty visits
  refine ⟨_, hholds.definitions, fun d hd => ?_⟩
  obtain ⟨x, hx, rfl⟩ := List.mem_map.mp ((Catalog.sorted_perm _).mem_iff.mp hd)
  obtain ⟨t, _, ht, htable⟩ := hholds.table? hx
  exact ⟨t, htable, fun path hcovers => Database.operatorLaws htable (by rw [ht.rows?, ht.rows_eq]) hcovers⟩

/-- An index of tags, in which ann has a row for each of hers. -/
def tagged : List Visit :=
  [{ call := .reopen {} .absent none },
    { call := .ensure { name := "tags", fields := [{ path := "tags" }] } Settings.ascending_nil },
    { call := .updateAll
      script := [{ before := [.create "ann" [("tags", .array [.string "tall", .string "late"])]] }] }]

def byTag : Definition := { name := "tags", kind := .value, fields := [⟨"tags", some .string⟩], lastSequence := 1 }

/-- One of the tags of ann is in the list and another is not. The column admits no numbers. -/
def threeOrTall : List Json := [.number (.int 3), .string "tall"]

theorem visited_operators_tagged :
    "ann" ∈ (visited {} tagged).database.found byTag "tags" (.oneOf threeOrTall) ∧
    "ann" ∉ (visited {} tagged).database.found byTag "tags" (.not (.oneOf threeOrTall)) := by
  obtain ⟨definitions, hdefinitions, hall⟩ := visited_operators tagged
  have hlist : (visited {} tagged).database.definitions.toOption = some [byTag] := by decide +kernel
  rw [hdefinitions] at hlist
  obtain rfl : definitions = [byTag] := Option.some.inj hlist
  obtain ⟨t, _, hlaws⟩ := hall byTag List.mem_cons_self
  have hread : (Condition.oneOf threeOrTall).IsRead "tags" := ⟨"$in", .array threeOrTall, rfl⟩
  have hann : ((visited {} tagged).database.found? byTag "tags" (.oneOf threeOrTall)).toOption.map (·.contains "ann") =
      some true := by decide +kernel
  obtain ⟨ids, hids⟩ := (hlaws "tags" (by decide)).answered _ hread
  rw [hids] at hann
  have hfound : "ann" ∈ (visited {} tagged).database.found byTag "tags" (.oneOf threeOrTall) :=
    ⟨ids, hids, List.contains_iff_mem.mp (Option.some.inj hann)⟩
  refine ⟨hfound, fun hnegate => ?_⟩
  exact Set.eq_empty_iff_forall_notMem.mp ((hlaws "tags" (by decide)).disjoint _ hread) "ann" ⟨hfound, hnegate⟩

end World

end DocIndex
