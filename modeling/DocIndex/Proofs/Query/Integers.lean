import DocIndex.Proofs.Number.Rounding
import DocIndex.Proofs.Query.Documents
import DocIndex.Proofs.Query.Operators

/-! # Comparison of integers

Integers of 63 binary digits are kept as they are, in cells and as operands, so they are compared exactly, with larger
integers too. A larger integer is kept as the nearest real, so two of them are compared as the multiples of 2048 that
they are rounded to.
-/

namespace DocIndex

/-- Integers of 64 bits with or without a sign: these are integers still when they have been read. -/
def IsWide (i : Int) : Prop := -2 ^ 63 ≤ i ∧ i < 2 ^ 64

/-- A large integer as its cell keeps it. -/
def rounded (i : Int) : Int := 2048 * Binary64.divRound i.toNat 2048

/-- An integer as its cell keeps it. -/
def kept (i : Int) : Int := if i < 2 ^ 63 then i else rounded i

section

variable {a b i : Int}

theorem kept_of_lt (h : i < 2 ^ 63) : kept i = i := if_pos h

theorem kept_of_le (h : 2 ^ 63 ≤ i) : kept i = rounded i := if_neg (by omega)

theorem le_rounded (h : 2 ^ 63 ≤ i) : 2 ^ 63 ≤ rounded i := by
  have hcases := Binary64.divRound_cases i.toNat 2048
  unfold rounded
  omega

theorem compare_kept (h : a < 2 ^ 63 ∨ b < 2 ^ 63) : compare (kept a) (kept b) = compare a b := by
  rcases Int.lt_or_le a (2 ^ 63) with ha | ha <;> rcases Int.lt_or_le b (2 ^ 63) with hb | hb
  · rw [kept_of_lt ha, kept_of_lt hb]
  · have := le_rounded hb
    rw [kept_of_lt ha, kept_of_le hb, Std.compare_eq_lt.mpr (by omega), Std.compare_eq_lt.mpr (by omega)]
  · have := le_rounded ha
    rw [kept_of_le ha, kept_of_lt hb, Std.compare_eq_gt.mpr (by omega), Std.compare_eq_gt.mpr (by omega)]
  · omega

namespace SqlValue

theorem fitsInt_iff : fitsInt i = true ↔ -2 ^ 63 ≤ i ∧ i < 2 ^ 63 := by simp [fitsInt]

theorem worth_ofNumber (h : IsWide i) : (ofNumber (.int i)).worth = kept i * Binary64.one := by
  by_cases hlt : i < 2 ^ 63
  · have hfits := fitsInt_iff.mpr ⟨h.1, hlt⟩
    rw [kept_of_lt hlt, ofNumber, if_pos hfits, worth, units?, Option.getD_some]
  · have hfits : ¬ fitsInt i = true := fun hfits => hlt (fitsInt_iff.mp hfits).2
    have hnat : Binary64.ofInt i = Binary64.ofNat i.toNat := by
      have hnonneg : ¬ i < 0 := by omega
      rw [Binary64.ofInt, if_neg hnonneg]
      congr 1
      omega
    have hle : 2 ^ (52 + 11) ≤ i.toNat := by omega
    have hge : i.toNat < 2 ^ (53 + 11) := by
      have := h.2
      omega
    have hpow : (2 : Nat) ^ 11 = 2048 ∧ (2 : Int) ^ 11 = 2048 := by decide
    have hunits := Binary64.units_ofNat (k := 11) (by decide) hle hge
    rw [hpow.1, hpow.2] at hunits
    rw [kept_of_le (by omega), ofNumber, if_neg hfits, hnat, worth, units?, Option.getD_some, hunits, rounded,
      Int.mul_comm 2048]

theorem order_ofNumber (m n : Json.Number) :
    order (ofNumber m) (ofNumber n) = compare (ofNumber m).worth (ofNumber n).worth := by
  have hplace : ∀ k : Json.Number, (ofNumber k).place = 1 ∧ (ofNumber k).characters = "" := by
    intro k
    cases k with
    | int i =>
      simp only [ofNumber]
      split <;> exact ⟨rfl, rfl⟩
    | float x => exact ⟨rfl, rfl⟩
  rw [order_eq]
  simp only [compareLex, compareOn, (hplace m).1, (hplace n).1, (hplace m).2, (hplace n).2, Std.compare_self,
    Ordering.eq_then, Ordering.then_eq]

theorem order_integers (ha : IsWide a) (hb : IsWide b) :
    order (Json.int a).cell (Json.int b).cell = compare (kept a) (kept b) := by
  show order (ofNumber (.int a)) (ofNumber (.int b)) = _
  rw [order_ofNumber, worth_ofNumber ha, worth_ofNumber hb, compare_mul_one]

end SqlValue

end

/-! ## Documents with an integer -/

/-- Comparisons with an operand match a document as one integer compares with another. -/
structure Database.Compares (db : Database) (d : Definition) (path id : String) (v : Json) (a b : Int) : Prop where
  eq : id ∈ db.asked d path "$eq" v ↔ a = b
  lt : id ∈ db.asked d path "$lt" v ↔ a < b
  lte : id ∈ db.asked d path "$lte" v ↔ a ≤ b
  gt : id ∈ db.asked d path "$gt" v ↔ b < a
  gte : id ∈ db.asked d path "$gte" v ↔ b ≤ a

/-- How a document with an integer is compared with the integers of queries. -/
structure Database.ComparesIntegers (db : Database) (d : Definition) (path id : String) (a : Int) : Prop where
  exact : ∀ b, IsWide b → a < 2 ^ 63 ∨ b < 2 ^ 63 → db.Compares d path id (.int b) a b
  large : ∀ b, IsWide b → 2 ^ 63 ≤ a → 2 ^ 63 ≤ b → db.Compares d path id (.int b) (rounded a) (rounded b)
  oneOf_exact : a < 2 ^ 63 → ∀ bs : List Int, (∀ b ∈ bs, IsWide b) →
    (id ∈ db.asked d path "$in" (.array (bs.map .int)) ↔ a ∈ bs)
  oneOf : ∀ bs : List Int, (∀ b ∈ bs, IsWide b) →
    (id ∈ db.asked d path "$in" (.array (bs.map .int)) ↔ ∃ b ∈ bs, kept a = kept b)

theorem Database.compares_of_found {db : Database} {d : Definition} {path id : String} {v : Json} {a b : Int}
    (hv : v.isComparable = true)
    (h : ∀ op, id ∈ db.found d path (.compare op v) ↔ Operator.admits op (compare a b) = true) :
    db.Compares d path id v a b := by
  constructor
  · rw [asked_comparison "$eq" (.compare .eq) (by simp [Condition.comparisons]) hv, h]
    exact beq_iff_eq.trans compare_eq_iff_eq
  · rw [asked_comparison "$lt" (.compare .lt) (by simp [Condition.comparisons]) hv, h]
    exact beq_iff_eq.trans compare_lt_iff_lt
  · rw [asked_comparison "$lte" (.compare .lte) (by simp [Condition.comparisons]) hv, h]
    exact bne_iff_ne.trans compare_le_iff_le
  · rw [asked_comparison "$gt" (.compare .gt) (by simp [Condition.comparisons]) hv, h]
    exact beq_iff_eq.trans compare_gt_iff_gt
  · rw [asked_comparison "$gte" (.compare .gte) (by simp [Condition.comparisons]) hv, h]
    exact bne_iff_ne.trans compare_ge_iff_ge

theorem Definition.covers_of_typeOf? {d : Definition} {path : String} {type : FieldType}
    (h : d.typeOf? path = some type) : d.covers path = true := by
  unfold typeOf? at h
  rw [covers, Bool.or_eq_true, List.any_eq_true]
  split at h
  · exact Or.inl ‹_›
  · obtain ⟨f, hf, _⟩ := Option.bind_eq_some_iff.mp h
    unfold field? at hf
    have hpath := List.find?_some hf
    exact Or.inr ⟨f, List.mem_of_find?_eq_some hf, hpath⟩

namespace Table.ShowsLive

variable {db : Database} {t : Table} {d : Definition} {r : Revision} {path : String} {c : Condition} {v : Json}
variable {a : Int}

/-- A document with one value of the field is found by the conditions that the value meets. -/
theorem mem_found_iff (h : t.ShowsLive d r) (ht : db.table? d.tableName = .ok t) (hrows : t.rows? = .ok t.rows)
    (hle : Index.arrays d.fields r ≤ 1) (hcovers : d.covers path = true) (hv : d.valuesOf r path = [v])
    (hc : c.Comparing) : r.docId ∈ db.found d path c ↔ c.IsMetBy v := by
  have hpositive : c.isNegative = false := by cases hc <;> rfl
  have hmem : v ∈ d.valuesOf r path := by simp [hv]
  rw [Database.mem_found_row ht hrows hcovers (.comparing hc) hpositive]
  constructor
  · rintro ⟨row, hrow, hid, hmatches⟩
    rcases h.cellAt_cases (h.mem_rows.mp ⟨hrow, hid⟩) hcovers with hnull | ⟨w, hw, hcell⟩
    · exact absurd hmatches (Condition.not_matches_null d path hnull)
    · obtain rfl : w = v := by simpa [hv] using hw
      rw [hcell] at hmatches
      exact (Definition.matches_iff hmem (Or.inl hc)).mp hmatches
  · intro hmet
    obtain ⟨row, hrow, hid, hcell⟩ := h.exists_shown hle hcovers hmem
    refine ⟨row, hrow, hid, ?_⟩
    rw [hcell]
    exact (Definition.matches_iff hmem (Or.inl hc)).mpr hmet

theorem comparesIntegers (h : t.ShowsLive d r) (ht : db.table? d.tableName = .ok t) (hrows : t.rows? = .ok t.rows)
    (hle : Index.arrays d.fields r ≤ 1) (htype : d.typeOf? path = some .number) (ha : IsWide a)
    (hfield : r.field? path = some (.int a)) : db.ComparesIntegers d path r.docId a := by
  have hcovers := Definition.covers_of_typeOf? htype
  have hvalues : d.valuesOf r path = [.int a] := by
    rw [Definition.valuesOf, hfield, htype]
    rfl
  have hcompare : ∀ (op : Operator) (b : Int), IsWide b →
      (r.docId ∈ db.found d path (.compare op (.int b)) ↔ op.admits (compare (kept a) (kept b)) = true) := by
    intro op b hb
    rw [h.mem_found_iff ht hrows hle hcovers hvalues (.compare op (.int b) rfl), Condition.IsMetBy,
      SqlValue.order_integers ha hb]
    exact and_iff_right rfl
  have hlist : ∀ bs : List Int, (∀ b ∈ bs, IsWide b) →
      (r.docId ∈ db.asked d path "$in" (.array (bs.map .int)) ↔ ∃ b ∈ bs, kept a = kept b) := by
    intro bs hbs
    have hcomparable : ∀ w ∈ bs.map Json.int, w.isComparable = true := by simp [Json.int, Json.isComparable]
    rw [Database.asked_eq (Condition.ofJson?_in hcomparable),
      h.mem_found_iff ht hrows hle hcovers hvalues (.oneOf _ hcomparable), Condition.IsMetBy]
    simp only [List.mem_map, exists_exists_and_eq_and]
    refine exists_congr fun b => and_congr_right fun hb => ?_
    rw [SqlValue.order_integers ha (hbs b hb), compare_eq_iff_eq]
    exact and_iff_right rfl
  constructor
  · intro b hb hsmall
    refine Database.compares_of_found rfl fun op => ?_
    rw [hcompare op b hb, compare_kept hsmall]
  · intro b hb hlarge hlarge'
    refine Database.compares_of_found rfl fun op => ?_
    rw [hcompare op b hb, kept_of_le hlarge, kept_of_le hlarge']
  · intro hsmall bs hbs
    have heq : ∀ b, kept a = kept b ↔ a = b := by
      intro b
      rw [← compare_eq_iff_eq, compare_kept (Or.inl hsmall), compare_eq_iff_eq]
    rw [hlist bs hbs]
    simp [heq]
  · exact hlist

end Table.ShowsLive

namespace World

/-- After any run, a live document that an index has come to, with an integer as a number of the index, is compared with
the integers of queries exactly, unless both need the 64th digit: then they are compared as they are rounded. -/
theorem run_integers (events : List Event) :
    ∃ definitions, (run {} events).database.definitions = .ok definitions ∧
      ∀ d ∈ definitions, d.kind = .value → ∀ path, d.typeOf? path = some .number →
      ∀ r, (run {} events).store.winning? r.docId = some r → r.deleted = false →
      (run {} events).starts d.name < r.sequence → r.sequence ≤ d.lastSequence → Index.arrays d.fields r ≤ 1 →
      ∀ a, IsWide a → r.field? path = some (.int a) →
      (run {} events).database.ComparesIntegers d path r.docId a := by
  obtain ⟨xs, h⟩ := Sound.empty.run events
  refine ⟨_, h.holds.definitions, fun d hd hk path htype r hr hlive hstart hsequence hle a ha hfield => ?_⟩
  obtain ⟨x, hx, rfl⟩ := List.mem_map.mp ((Catalog.sorted_perm _).mem_iff.mp hd)
  obtain ⟨t, _, ht, htable⟩ := h.holds.table? hx
  have hrepresents := (h.follows x hx).current _ r hr hstart hsequence
  have hshows := hrepresents.showsLive (h.holds.valid x hx) hk ht hlive
  exact hshows.comparesIntegers htable (by rw [ht.rows?, ht.rows_eq]) hle htype ha hfield

/-- A run with an index of ages, in which ann has the smallest age of 64 digits. -/
def ancient : List Event :=
  [.ensure { name := "ages", fields := [{ path := "age" }] } "" 0,
    .create "ann" [("age", .int 9223372036854775808)],
    .startUpdate 0 "ages" 10 0, .advance 0, .advance 0, .advance 0]

def byAge : Definition :=
  { name := "ages", kind := .value, fields := [{ path := "age", type? := some .number }], lastSequence := 1 }

theorem definitions_ancient : (run {} ancient).database.definitions = .ok [byAge] := by
  have hlist : (run {} ancient).database.definitions.toOption = some [byAge] := by decide +kernel
  exact ok_of_toOption hlist

theorem exists_ancient : ∃ r, (run {} ancient).store.winning? r.docId = some r ∧ r.docId = "ann" ∧ r.deleted = false ∧
    r.sequence = 1 ∧ Index.arrays byAge.fields r = 0 ∧ r.field? "age" = some (.int 9223372036854775808) := by
  have hshown : ((run {} ancient).store.winning? "ann").map (fun r => (r.docId, r.deleted, r.sequence,
      Index.arrays byAge.fields r, (r.field? "age").bind Json.asInt?)) =
      some ("ann", false, 1, 0, some 9223372036854775808) := by decide +kernel
  obtain ⟨r, hr, hfacts⟩ := Option.map_eq_some_iff.mp hshown
  simp only [Prod.mk.injEq] at hfacts
  obtain ⟨hid, hlive, hsequence, harrays, hfield⟩ := hfacts
  refine ⟨r, by rw [hid]; exact hr, hid, hlive, hsequence, harrays, ?_⟩
  obtain ⟨v, hv, hint⟩ := Option.bind_eq_some_iff.mp hfield
  rw [hv]
  cases v with
  | number n =>
    cases n with
    | int i =>
      rw [Option.some.inj hint]
      rfl
    | float x => cases hint
  | null | bool b | string s | array items | object members => cases hint

theorem run_integers_ancient :
    (run {} ancient).database.ComparesIntegers byAge "age" "ann" 9223372036854775808 ∧
    "ann" ∈ (run {} ancient).database.asked byAge "age" "$gt" (.int 9223372036854775807) ∧
    "ann" ∉ (run {} ancient).database.asked byAge "age" "$gte" (.int 9223372036854777856) := by
  obtain ⟨definitions, hdefinitions, hall⟩ := run_integers ancient
  rw [definitions_ancient] at hdefinitions
  obtain rfl := Except.ok.inj hdefinitions
  obtain ⟨r, hr, hid, hlive, hsequence, harrays, hfield⟩ := exists_ancient
  have hcompares := hall byAge (List.mem_singleton_self _) rfl "age" (by decide) r hr hlive
    (by rw [hsequence]; decide +kernel) hsequence.le (by omega) _ ⟨by decide, by decide⟩ hfield
  rw [hid] at hcompares
  refine ⟨hcompares, ?_, ?_⟩
  · exact (hcompares.exact 9223372036854775807 ⟨by decide, by decide⟩ (by decide)).gt.mpr (by decide)
  · rw [(hcompares.large 9223372036854777856 ⟨by decide, by decide⟩ (by decide) (by decide)).gte]
    decide +kernel

/-- Comparison is not exact where both integers need the 64th digit: an age is found that is one less. -/
theorem not_run_integers_exact : ¬ ∀ (events : List Event) (definitions : List Definition),
    (run {} events).database.definitions = .ok definitions →
    ∀ d ∈ definitions, d.kind = .value → ∀ path, d.typeOf? path = some .number →
    ∀ r, (run {} events).store.winning? r.docId = some r → r.deleted = false →
    (run {} events).starts d.name < r.sequence → r.sequence ≤ d.lastSequence → Index.arrays d.fields r ≤ 1 →
    ∀ a, IsWide a → r.field? path = some (.int a) → ∀ b, IsWide b →
    (r.docId ∈ (run {} events).database.asked d path "$eq" (.int b) ↔ a = b) := by
  intro h
  obtain ⟨r, hr, hid, hlive, hsequence, harrays, hfield⟩ := exists_ancient
  have hiff := h ancient [byAge] definitions_ancient byAge (List.mem_singleton_self _) rfl "age" (by decide) r hr hlive
    (by rw [hsequence]; decide +kernel) hsequence.le (by omega) _ ⟨by decide, by decide⟩ hfield 9223372036854775809
    ⟨by decide, by decide⟩
  have hread : Condition.ofJson? "age" "$eq" (.int 9223372036854775809) =
      .ok (.compare .eq (.int 9223372036854775809)) :=
    Condition.ofJson?_comparison (by simp [Condition.comparisons]) rfl
  have hfound : ((run {} ancient).database.found? byAge "age" (.compare .eq (.int 9223372036854775809))).toOption.map
      (·.contains "ann") = some true := by decide +kernel
  obtain ⟨ids, hids, hann⟩ := Option.map_eq_some_iff.mp hfound
  rw [Database.asked_eq hread, hid] at hiff
  exact absurd (hiff.mp ⟨ids, ok_of_toOption hids, List.contains_iff_mem.mp hann⟩) (by decide)

end World

end DocIndex
