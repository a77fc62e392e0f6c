import DocIndex.Proofs.Maintenance.Visits

/-! # Names that indexes take

The table of an index, the lookup structures over it and the parts of a full-text table all take names in the
database. The names of lookup structures are never those of another index. The names of parts are: an index that is
named as a text index with the ending of a part takes the name of that part for its table. Two indexes share a name
only in this way, and a request that conflicts with no definition is refused because of another index only for this
reason.
-/

namespace DocIndex

open FullText

/-! ## Beginnings and endings -/

theorem sameName_tableNameOf_lookupNameOf (a b purpose : String) :
    sameName (tableNameOf a) (lookupNameOf b purpose) = false := by
  have htable : tableNameOf a = "_sofa_query_" ++ ("index_" ++ a) := by rw [← String.append_assoc]; rfl
  have hlookup : lookupNameOf b purpose = "_sofa_query_" ++ ("key_" ++ (purpose ++ "_" ++ b)) := by
    rw [← String.append_assoc, ← String.append_assoc, ← String.append_assoc]
    rfl
  rw [htable, hlookup, sameName_append_left, ← Bool.not_eq_true]
  intro hsame
  have hfirst := congrArg List.head? (sameName_iff.mp hsame)
  simp at hfirst

theorem sameName_lookupNameOf {a b purpose other : String} (h : sameName a b = false)
    (hp : purpose = "fields" ∨ purpose = "id") (ho : other = "fields" ∨ other = "id") :
    sameName (lookupNameOf a purpose) (lookupNameOf b other) = false := by
  have hname : ∀ index purpose : String,
      lookupNameOf index purpose = "_sofa_query_key_" ++ (purpose ++ ("_" ++ index)) := by
    intro index purpose
    rw [← String.append_assoc, ← String.append_assoc]
    rfl
  rw [hname, hname, sameName_append_left]
  by_cases hsame : purpose = other
  · rw [hsame, sameName_append_left, sameName_append_left, h]
  · rw [← Bool.not_eq_true]
    intro heq
    have hfirst := congrArg List.head? (sameName_iff.mp heq)
    rcases hp with rfl | rfl <;> rcases ho with rfl | rfl <;> simp at hfirst hsame

def FullText.Part.lastLetter : Part → Char
  | .data => 'a'
  | .idx => 'x'
  | .content => 't'
  | .docsize => 'e'
  | .config => 'g'

namespace FullText.Part

theorem lastLetter_injective {p q : Part} (h : p.lastLetter = q.lastLetter) : p = q := by
  cases p <;> cases q <;> first | rfl | exact absurd h (by decide)

theorem getLast?_append_suffix (name : String) (p : Part) :
    ((name ++ p.suffix).toList.map Char.toLower).getLast? = some p.lastLetter := by
  rw [String.toList_append, List.map_append, List.getLast?_append]
  cases p <;> rfl

theorem eq_of_sameName {a b : String} {p q : Part} (h : sameName (a ++ p.suffix) (b ++ q.suffix) = true) : p = q := by
  have hlast := congrArg List.getLast? (sameName_iff.mp h)
  rw [getLast?_append_suffix, getLast?_append_suffix] at hlast
  exact lastLetter_injective (Option.some.inj hlast)

end FullText.Part

/-! ## Two indexes -/

namespace Definition

variable {d e : Definition} {n m : String}

/-- The index is named as a part of the other, which is a text index. -/
def IsNamedAsPartOf (d e : Definition) : Prop :=
  e.kind = .text ∧ ∃ p : Part, sameName d.name (e.name ++ p.suffix) = true

/-- One index is named as a part of the other. -/
def Clashes (d e : Definition) : Prop := d.IsNamedAsPartOf e ∨ e.IsNamedAsPartOf d

/-- A name that is taken begins as that of a table, and may end as that of a part, or is that of a lookup
structure. -/
theorem mem_takenNames (h : n ∈ d.takenNames) :
    n = tableNameOf d.name ∨ (d.kind = .text ∧ ∃ p : Part, n = tableNameOf (d.name ++ p.suffix)) ∨
      ∃ purpose, (purpose = "fields" ∨ purpose = "id") ∧ n = lookupNameOf d.name purpose := by
  rw [takenNames, List.mem_append, List.mem_cons, List.mem_map] at h
  rcases h with (rfl | ⟨p, hp, rfl⟩) | h
  · exact Or.inl rfl
  · refine Or.inr (Or.inl ⟨?_, p, String.append_assoc⟩)
    cases hk : d.kind with
    | value => simp [hk, IndexKind.parts] at hp
    | text => rfl
  · refine Or.inr (Or.inr ?_)
    unfold lookups at h
    cases hk : d.kind with
    | value =>
      rw [hk] at h
      rcases List.mem_append.mp h with h | h
      · split at h
        · cases h
        · exact ⟨"fields", Or.inl rfl, List.mem_singleton.mp h⟩
      · exact ⟨"id", Or.inr rfl, List.mem_singleton.mp h⟩
    | text => simp [hk] at h

theorem tableName_mem_takenNames (d : Definition) : d.tableName ∈ d.takenNames :=
  List.mem_append_left _ List.mem_cons_self

theorem part_mem_takenNames (hd : d.kind = .text) (p : Part) : tableNameOf (d.name ++ p.suffix) ∈ d.takenNames := by
  have hpart : p ∈ d.kind.parts := by
    rw [hd]
    cases p <;> decide
  have hname : d.tableName ++ p.suffix = tableNameOf (d.name ++ p.suffix) := String.append_assoc
  exact List.mem_append_left _ (List.mem_cons_of_mem _ (List.mem_map.mpr ⟨p, hpart, hname⟩))

theorem clashes_of_sameName (hde : sameName d.name e.name = false) (hn : n ∈ d.takenNames) (hm : m ∈ e.takenNames)
    (h : sameName n m = true) : d.Clashes e := by
  rcases mem_takenNames hn with rfl | ⟨hd, p, rfl⟩ | ⟨purpose, hp, rfl⟩ <;>
    rcases mem_takenNames hm with rfl | ⟨he, q, rfl⟩ | ⟨other, ho, rfl⟩
  · rw [Database.sameName_tableNameOf, hde] at h
    cases h
  · rw [Database.sameName_tableNameOf] at h
    exact Or.inl ⟨he, q, h⟩
  · rw [sameName_tableNameOf_lookupNameOf] at h
    cases h
  · rw [Database.sameName_tableNameOf, sameName_comm] at h
    exact Or.inr ⟨hd, p, h⟩
  · rw [Database.sameName_tableNameOf] at h
    obtain rfl := Part.eq_of_sameName h
    rw [sameName_append_right, hde] at h
    cases h
  · rw [sameName_tableNameOf_lookupNameOf] at h
    cases h
  · rw [sameName_comm, sameName_tableNameOf_lookupNameOf] at h
    cases h
  · rw [sameName_comm, sameName_tableNameOf_lookupNameOf] at h
    cases h
  · rw [sameName_lookupNameOf hde hp ho] at h
    cases h

theorem IsNamedAsPartOf.sameName (h : d.IsNamedAsPartOf e) :
    ∃ m ∈ e.takenNames, sameName d.tableName m = true := by
  obtain ⟨he, p, hsame⟩ := h
  refine ⟨_, part_mem_takenNames he p, ?_⟩
  rw [tableName, Database.sameName_tableNameOf]
  exact hsame

/-- Two indexes take a common name, whatever its case, if and only if one is named as a part of the other. -/
theorem shared_iff_clashes (hde : sameName d.name e.name = false) :
    (∃ n ∈ d.takenNames, ∃ m ∈ e.takenNames, sameName n m = true) ↔ d.Clashes e := by
  constructor
  · rintro ⟨n, hn, m, hm, hsame⟩
    exact clashes_of_sameName hde hn hm hsame
  · rintro (h | h)
    · obtain ⟨m, hm, hsame⟩ := h.sameName
      exact ⟨_, d.tableName_mem_takenNames, m, hm, hsame⟩
    · obtain ⟨n, hn, hsame⟩ := h.sameName
      exact ⟨n, hn, _, e.tableName_mem_takenNames, by rw [sameName_comm]; exact hsame⟩

end Definition

/-! ## A new index among others -/

namespace Database

variable {db : Database} {d : Definition} {s : IndexSpec} {xs : List Content} {start : Int}

/-- The database as if no index had been declared. -/
def withoutIndexes (db : Database) : Database := { db with catalog := [], tables := [] }

theorem createTable_toBool :
    (db.createTable d).toBool = true ↔ ∃ t, emptyTable? d = .ok t ∧ ∀ n ∈ t.takenNames, db.isTaken n = false := by
  unfold createTable
  cases ht : emptyTable? d with
  | error e => simp [bind, Except.bind, Except.toBool]
  | ok t =>
    simp only [bind, Except.bind, Except.ok.injEq, exists_eq_left']
    cases hfree : t.takenNames.find? db.isTaken with
    | none => simpa [Except.toBool] using List.find?_eq_none.mp hfree
    | some name =>
      have htaken := List.find?_some hfree
      simpa [Except.toBool] using ⟨name, List.mem_of_find?_eq_some hfree, htaken⟩

theorem ensure_new {ds : List Definition} (hds : db.definitions = .ok ds) (hnew : ∀ d ∈ ds, d.name ≠ s.name)
    (hfree : conflict? ds s = none) :
    db.ensure s start =
      { db with catalog := db.catalog.insert (s.definition start) }.createTable (s.definition start) := by
  have hnone : ds.find? (·.name == s.name) = none := by simpa using hnew
  unfold Database.ensure
  simp only [hds, hnone, hfree, bind, Except.bind]
  rfl

theorem sameName_of_conflict? {ds : List Definition} (hfree : conflict? ds s = none) :
    ∀ d ∈ ds, sameName d.name s.name = false := by
  unfold conflict? at hfree
  split at hfree
  · cases hfree
  · rename_i hnone
    simpa using hnone

theorem Holds.isTaken_iff (h : db.Holds xs) (n : String) :
    db.isTaken n = true ↔ db.withoutIndexes.isTaken n = true ∨
      ∃ x ∈ xs, ∃ m ∈ x.definition.takenNames, sameName m n = true := by
  simp only [isTaken, withoutIndexes, Bool.or_eq_true, List.any_eq_true, List.not_mem_nil, false_and, exists_false,
    or_false]
  refine or_congr Iff.rfl ⟨?_, ?_⟩
  · rintro ⟨t, ht, hsame⟩
    obtain ⟨x, hx, hk⟩ := h.tables.owned t ht
    rw [hk.takenNames_eq] at hsame
    exact ⟨x, hx, hsame⟩
  · rintro ⟨x, hx, hsame⟩
    obtain ⟨t, ht, hk⟩ := h.tables.kept x hx
    rw [← hk.takenNames_eq] at hsame
    exact ⟨t, ht, hsame⟩

theorem Holds.free_iff (h : db.Holds xs) (hapart : ∀ x ∈ xs, sameName x.name d.name = false) :
    (∀ n ∈ d.takenNames, db.isTaken n = false) ↔
      (∀ n ∈ d.takenNames, db.withoutIndexes.isTaken n = false) ∧ ∀ x ∈ xs, ¬ x.definition.Clashes d := by
  simp only [← Bool.not_eq_true, h.isTaken_iff, not_or, forall_and]
  refine and_congr_right fun _ => ⟨fun hfree x hx hclash => ?_, ?_⟩
  · obtain ⟨m, hm, n, hn, hsame⟩ := (Definition.shared_iff_clashes (hapart x hx)).mpr hclash
    exact hfree n hn ⟨x, hx, m, hm, hsame⟩
  · rintro hfree n hn ⟨x, hx, m, hm, hsame⟩
    exact hfree x hx ((Definition.shared_iff_clashes (hapart x hx)).mp ⟨m, hm, n, hn, hsame⟩)

/-- An index that conflicts with no other can be declared if it could be declared alone, and neither it nor another is
named as a part of the other. -/
theorem Holds.ensure_new_iff (h : db.Holds xs) (hs : (s.definition start).Valid) {ds : List Definition}
    (hds : ∀ d, d ∈ ds ↔ ∃ x ∈ xs, x.definition = d) (hdefinitions : db.definitions = .ok ds)
    (hnew : ∀ d ∈ ds, d.name ≠ s.name) (hfree : conflict? ds s = none) :
    (db.ensure s start).toBool = true ↔
      (db.withoutIndexes.ensure s start).toBool = true ∧ ∀ d ∈ ds, ¬ d.Clashes (s.definition start) := by
  have hapart : ∀ x ∈ xs, sameName x.name (s.definition start).name = false :=
    fun x hx => sameName_of_conflict? hfree _ ((hds _).mpr ⟨x, hx, rfl⟩)
  have halone : conflict? [] s = none := by
    unfold conflict?
    cases s.kind <;> rfl
  have hnone : db.withoutIndexes.definitions = .ok [] := by
    have hempty := (Holds.empty.withSchema db.schema).definitions
    rwa [List.map_nil, Catalog.sorted, List.mergeSort_nil] at hempty
  rw [ensure_new hdefinitions hnew hfree, ensure_new hnone (by simp) halone, createTable_toBool, createTable_toBool,
    ← exists_and_right]
  refine exists_congr fun t => ?_
  rw [and_assoc, and_congr_right_iff]
  intro ht
  rw [(emptyTable?_keeps hs ht).takenNames_eq]
  refine (h.free_iff hapart).trans (and_congr Iff.rfl ?_)
  simp only [hds, forall_exists_index, and_imp, forall_apply_eq_imp_iff₂]

end Database

namespace World

/-- Two indexes whose names differ by more than case take a common name if and only if one is named as a part of the
other, which is a text index. After any visits to an empty database a request that conflicts with no definition
succeeds if and only if it would without other indexes, and no definition clashes with it so. -/
theorem visited_ensure (visits : List Visit) :
    (∀ d e : Definition, sameName d.name e.name = false →
      ((∃ n ∈ d.takenNames, ∃ m ∈ e.takenNames, sameName n m = true) ↔ d.Clashes e)) ∧
    ∃ ds, (visited {} visits).database.definitions = .ok ds ∧
      ∀ (s : IndexSpec) (start : Int), s.Accepted → (∀ d ∈ ds, d.name ≠ s.name) → Database.conflict? ds s = none →
        (((visited {} visits).database.ensure s start).toBool = true ↔
          ((visited {} visits).database.withoutIndexes.ensure s start).toBool = true ∧
            ∀ d ∈ ds, ¬ d.Clashes (s.definition start)) := by
  refine ⟨fun d e hde => Definition.shared_iff_clashes hde, ?_⟩
  obtain ⟨xs, h, _⟩ := orderly_visited (w := {}) .empty visits
  refine ⟨_, h.definitions, fun s start hs hnew hfree => ?_⟩
  have hvalid := IndexSpec.definition_valid hs.validate_eq hs.ascending hs.tokenizer start
  refine h.ensure_new_iff hvalid (fun d => ?_) h.definitions hnew hfree
  rw [(Catalog.sorted_perm _).mem_iff, List.mem_map]

/-- A database with a text index. -/
def noted : List Visit :=
  [{ call := .reopen {} .absent none },
    { call := .ensure { name := "s", kind := .text, fields := [{ path := "body" }] } Settings.ascending_nil }]

def notes : Definition :=
  { name := "s", kind := .text, fields := [{ path := "body" }], settings := [("tokenize", "unicode61")] }

/-- A request with a name apart from the parts of the text index. -/
def asOther : IndexSpec := { name := "s_age", fields := [{ path := "age" }] }

theorem visited_ensure_noted : ((visited {} noted).database.ensure asOther 0).toBool = true ∧
    ∃ ds, (visited {} noted).database.definitions = .ok ds ∧ ds = [notes] := by
  obtain ⟨_, ds, hds, hensure⟩ := visited_ensure noted
  have hlist : (visited {} noted).database.definitions.toOption = some [notes] := by decide +kernel
  rw [hds] at hlist
  obtain rfl : ds = [notes] := Option.some.inj hlist
  have haccepted : asOther.Accepted := ⟨by rfl, .nil, nofun⟩
  have hclash : ∀ d ∈ [notes], ¬ d.Clashes (asOther.definition 0) := by
    rintro d hd hclash
    rw [List.mem_singleton.mp hd] at hclash
    rcases hclash with ⟨hkind, _⟩ | ⟨_, p, hsame⟩
    · cases hkind
    · exact absurd hsame (by cases p <;> decide +kernel)
  have halone : ((visited {} noted).database.withoutIndexes.ensure asOther 0).toBool = true := by decide +kernel
  exact ⟨(hensure asOther 0 haccepted (by decide +kernel) (by decide +kernel)).mpr ⟨halone, hclash⟩, _, hds, rfl⟩

/-- A request whose table would have the name of a part of the text index. -/
def asPart : IndexSpec := { name := "s_data", fields := [{ path := "age" }] }

/-- Two names that differ by more than case do not keep a text index and a value index apart: the part of the one that
has the data has the name of the other's table. So the second is refused though it conflicts with no definition, and
it would not be refused alone. -/
theorem not_visited_ensure_part :
    isIndexName "s" = true ∧ isIndexName "s_data" = true ∧ sameName "s" "s_data" = false ∧
    (∃ n ∈ notes.takenNames, ∃ m ∈ (asPart.definition 0).takenNames, sameName n m = true) ∧
    asPart.validate.toBool = true ∧
    (visited {} noted).database.definitions.toOption.map (Database.conflict? · asPart) = some none ∧
    ((visited {} noted).database.ensure asPart 0).toBool = false ∧
    ((visited {} noted).database.withoutIndexes.ensure asPart 0).toBool = true := by
  refine ⟨by decide, by decide, by decide +kernel, ?_, by decide +kernel, by decide +kernel, by decide +kernel,
    by decide +kernel⟩
  exact ⟨_, Definition.part_mem_takenNames rfl .data, _, Definition.tableName_mem_takenNames _, by decide +kernel⟩

end World

end DocIndex
