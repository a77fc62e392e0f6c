import DocIndex.Proofs.Query.NewIndex
import DocIndex.Proofs.Query.Rearranged

/-! # The index that is preferred

A group of conditions is answered by a value index that has all of its fields. Of several the rule of preference takes
the one whose leading field is constrained, then one that has the sort fields, then the one with the fewest fields,
then the first by name. The planner does so, but to it an identifier is never constrained: an index that begins with an
identifier is ranked as if the group had no condition on it. Only such an index can stand before the one that is chosen.
-/

namespace DocIndex

namespace Planner

/-- A value index that has all fields of a group. Identifiers are part of every index. -/
structure Suits (group : List (String × Condition)) (d : Definition) : Prop where
  kind_eq : d.kind = .value
  holds : ∀ p ∈ group, isBuiltin p.1 = false → p.1 ∈ d.paths

/-- What the rule of preference compares if some fields are taken as constrained: whether the leading field is none of
them, whether a sort field is lacking, the number of fields, and the name. -/
def standing (fields : List String) (sort : List SortKey) (d : Definition) : Bool ×ₗ Bool ×ₗ ℕ ×ₗ String :=
  toLex (decide (∀ path ∈ fields, d.paths.head? ≠ some path),
    toLex (decide (∃ key ∈ sort, isBuiltin key.path = false ∧ key.path ∉ d.paths), toLex (d.paths.length, d.name)))

def asked (group : List (String × Condition)) : List String := group.map (·.1)

/-- The same without identifiers. -/
def ordinary (group : List (String × Condition)) : List String := (asked group).filter (!isBuiltin ·)

/-- The index suits the group and stands before every other that does. -/
structure IsForemost (fields : List String) (sort : List SortKey) (definitions : List Definition)
    (group : List (String × Condition)) (d : Definition) : Prop where
  mem : d ∈ definitions
  suits : Suits group d
  foremost : ∀ e ∈ definitions, Suits group e → e ≠ d → standing fields sort d < standing fields sort e

/-- The leading field is an identifier, and the group has a condition on it. -/
def LedByIdentifier (group : List (String × Condition)) (d : Definition) : Prop :=
  ∃ path ∈ asked group, isBuiltin path = true ∧ d.paths.head? = some path

variable {paths fields : List String} {sort : List SortKey} {definitions ds : List Definition} {d e : Definition}
variable {group group' : List (String × Condition)}

/-! ## Candidates and their ranks -/

theorem covers_iff {path : String} : d.covers path = true ↔ isBuiltin path = true ∨ path ∈ d.paths := by
  simp [Definition.covers, Definition.paths]

theorem mem_candidates_iff_suits :
    d ∈ candidates (constrained group) definitions ↔ d ∈ definitions ∧ Suits group d := by
  rw [mem_candidates]
  refine and_congr_right fun _ => ⟨fun h => ⟨h.1, fun p hp hplain => ?_⟩, fun h => ⟨h.kind_eq, fun path hpath => ?_⟩⟩
  · have hcovers := covers_iff.mp (h.2 p.1 (mem_constrained.mpr ⟨⟨p.2, hp⟩, hplain⟩))
    rw [hplain] at hcovers
    exact hcovers.resolve_left Bool.false_ne_true
  · obtain ⟨⟨c, hc⟩, hplain⟩ := mem_constrained.mp hpath
    exact covers_iff.mpr (Or.inr (h.holds (path, c) hc hplain))

theorem mem_ordinary {path : String} : path ∈ ordinary group ↔ path ∈ constrained group := by
  rw [mem_constrained, ordinary, asked, List.mem_filter, List.mem_map]
  simp

theorem rank_key (group : List (String × Condition)) (sort : List SortKey) (d : Definition) :
    (rank (constrained group) sort d).key = standing (ordinary group) sort d := by
  have hleading : (rank (constrained group) sort d).leadingFree =
      decide (∀ path ∈ ordinary group, d.paths.head? ≠ some path) := by
    rw [Bool.eq_iff_iff, decide_eq_true_eq]
    simp only [mem_ordinary, rank, Definition.paths, List.head?_map]
    cases d.fields.head? with
    | none => simp
    | some f =>
      simp only [Option.map_some, Bool.not_eq_true', List.contains_eq_mem, decide_eq_false_iff_not, ne_eq,
        Option.some.injEq]
      constructor
      · intro hfree path hpath heq
        exact hfree (heq ▸ hpath)
      · intro hall hmem
        exact hall _ hmem rfl
  have hsort : (rank (constrained group) sort d).missesSort =
      decide (∃ key ∈ sort, isBuiltin key.path = false ∧ key.path ∉ d.paths) := by
    rw [Bool.eq_iff_iff, decide_eq_true_eq]
    simp only [rank, Bool.not_eq_true', List.all_eq_false, covers_iff, not_or, Bool.not_eq_true]
  have hsize : (rank (constrained group) sort d).size = d.paths.length := by simp [rank, Definition.paths]
  rw [Rank.key, hleading, hsort, hsize]
  rfl

theorem best_eq_none_iff : best paths sort ds = none ↔ ds = [] := by
  cases ds with
  | nil => exact iff_of_true rfl rfl
  | cons d rest =>
    refine iff_of_false ?_ (List.cons_ne_nil _ _)
    rw [best]
    cases best paths sort rest with
    | none => simp
    | some e =>
      dsimp only
      split <;> simp

theorem best_le (h : best paths sort ds = some d) (he : e ∈ ds) :
    (rank paths sort d).key ≤ (rank paths sort e).key := by
  induction ds generalizing d with
  | nil => cases he
  | cons a rest ih =>
    rw [best] at h
    cases hrest : best paths sort rest with
    | none =>
      rw [best_eq_none_iff.mp hrest, List.mem_singleton] at he
      rw [hrest, Option.some.injEq] at h
      rw [← h, he]
    | some b =>
      simp only [hrest, Rank.isBelow_iff] at h
      split at h
      · rename_i hlt
        obtain rfl := Option.some.inj h
        rcases List.mem_cons.mp he with rfl | he
        · exact hlt.le
        · exact ih hrest he
      · rename_i hnot
        obtain rfl := Option.some.inj h
        rcases List.mem_cons.mp he with rfl | he
        · exact le_rfl
        · exact (not_lt.mp hnot).trans (ih hrest he)

/-! ## The choice -/

theorem name_eq_of_standing (h : standing fields sort d = standing fields sort e) : d.name = e.name :=
  congrArg (fun k => (ofLex (ofLex (ofLex k).2).2).2) h

theorem standing_ne (hn : (definitions.map (·.name)).Nodup) (hd : d ∈ definitions) (he : e ∈ definitions)
    (hne : e ≠ d) : standing fields sort d ≠ standing fields sort e := fun heq =>
  hne (List.inj_on_of_nodup_map hn he hd (name_eq_of_standing heq).symm)

theorem IsForemost.unique (hd : IsForemost fields sort definitions group d)
    (he : IsForemost fields sort definitions group e) : d = e := by
  by_contra hne
  have hlt := hd.foremost e he.mem he.suits (Ne.symm hne)
  have hgt := he.foremost d hd.mem hd.suits hne
  exact lt_asymm hlt hgt

theorem chooseIndex_eq_ok_iff :
    chooseIndex definitions sort group = .ok d ↔
      best (constrained group) sort (candidates (constrained group) definitions) = some d := by
  unfold chooseIndex
  cases hbest : best (constrained group) sort (candidates (constrained group) definitions) with
  | none => simp [hbest]
  | some b => simp [hbest]

theorem succeeds_chooseIndex :
    Succeeds (chooseIndex definitions sort group) ↔ ∃ d ∈ definitions, Suits group d := by
  have hsome : Succeeds (chooseIndex definitions sort group) ↔
      best (constrained group) sort (candidates (constrained group) definitions) ≠ none := by
    rw [Option.ne_none_iff_exists']
    exact exists_congr fun _ => chooseIndex_eq_ok_iff
  rw [hsome, Ne, best_eq_none_iff, List.eq_nil_iff_forall_not_mem, not_forall_not]
  exact exists_congr fun _ => mem_candidates_iff_suits

theorem isForemost_of_chooseIndex (hn : (definitions.map (·.name)).Nodup)
    (h : chooseIndex definitions sort group = .ok d) : IsForemost (ordinary group) sort definitions group d := by
  have hbest := chooseIndex_eq_ok_iff.mp h
  obtain ⟨hmem, hsuits⟩ := mem_candidates_iff_suits.mp (best_mem hbest)
  refine ⟨hmem, hsuits, fun e he hes hne => lt_of_le_of_ne ?_ (standing_ne hn hmem he hne)⟩
  rw [← rank_key, ← rank_key]
  exact best_le hbest (mem_candidates_iff_suits.mpr ⟨he, hes⟩)

theorem chooseIndex_iff_isForemost (hn : (definitions.map (·.name)).Nodup) :
    chooseIndex definitions sort group = .ok d ↔ IsForemost (ordinary group) sort definitions group d := by
  refine ⟨isForemost_of_chooseIndex hn, fun h => ?_⟩
  obtain ⟨e, he⟩ := succeeds_chooseIndex.mpr ⟨d, h.mem, h.suits⟩
  rw [he, h.unique (isForemost_of_chooseIndex hn he)]

theorem chooseIndex_rearranged (hn : (definitions.map (·.name)).Nodup) (hperm : ds.Perm definitions)
    (hsame : ∀ path, path ∈ asked group' ↔ path ∈ asked group) :
    chooseIndex ds sort group' = chooseIndex definitions sort group := by
  have hpaths : constrained group' = constrained group := by
    refine constrained_congr fun path => ?_
    have hasked : ∀ group : List (String × Condition), (∃ c, (path, c) ∈ group) ↔ path ∈ asked group := by
      intro group
      simp [asked]
    rw [hasked, hasked, hsame]
  have hbest : best (constrained group) sort (candidates (constrained group) ds) =
      best (constrained group) sort (candidates (constrained group) definitions) := by
    have hn' : (ds.map (·.name)).Nodup := (hperm.map _).nodup_iff.mpr hn
    refine Option.ext fun d => ?_
    rw [← chooseIndex_eq_ok_iff, ← chooseIndex_eq_ok_iff, chooseIndex_iff_isForemost hn',
      chooseIndex_iff_isForemost hn]
    have hmem : ∀ e, e ∈ ds ↔ e ∈ definitions := fun e => hperm.mem_iff
    constructor
    · intro h
      exact ⟨(hmem d).mp h.mem, h.suits, fun e he => h.foremost e ((hmem e).mpr he)⟩
    · intro h
      exact ⟨(hmem d).mpr h.mem, h.suits, fun e he => h.foremost e ((hmem e).mp he)⟩
  unfold chooseIndex
  simp only [hpaths, hbest]

/-! ## Identifiers -/

theorem standing_asked_le (group : List (String × Condition)) (sort : List SortKey) (d : Definition) :
    standing (asked group) sort d ≤ standing (ordinary group) sort d := by
  have hflag : decide (∀ path ∈ asked group, d.paths.head? ≠ some path) ≤
      decide (∀ path ∈ ordinary group, d.paths.head? ≠ some path) := by
    rw [Bool.le_iff_imp, decide_eq_true_eq, decide_eq_true_eq]
    exact fun h path hpath => h path (List.mem_filter.mp hpath).1
  rcases hflag.lt_or_eq with hlt | heq
  · exact (Prod.Lex.lt_iff.mpr (Or.inl hlt)).le
  · rw [standing, heq]
    exact le_rfl

theorem standing_asked_eq (h : ¬ LedByIdentifier group d) :
    standing (asked group) sort d = standing (ordinary group) sort d := by
  have hiff : (∀ path ∈ asked group, d.paths.head? ≠ some path) ↔
      ∀ path ∈ ordinary group, d.paths.head? ≠ some path := by
    refine ⟨fun hall path hpath => hall path (List.mem_filter.mp hpath).1, fun hall path hpath hhead => ?_⟩
    cases hbuiltin : isBuiltin path with
    | true => exact h ⟨path, hpath, hbuiltin, hhead⟩
    | false => exact hall path (List.mem_filter.mpr ⟨hpath, by simp [hbuiltin]⟩) hhead
  unfold standing
  simp only [hiff]

/-- The index that the planner chooses is the one that the rule prefers, unless an index that a constrained identifier
leads stands before it. -/
theorem isForemost_asked_iff (hn : (definitions.map (·.name)).Nodup)
    (h : IsForemost (ordinary group) sort definitions group d) :
    IsForemost (asked group) sort definitions group d ↔
      ∀ e ∈ definitions, Suits group e → LedByIdentifier group e →
        ¬ standing (asked group) sort e < standing (asked group) sort d := by
  constructor
  · intro hrule e he hsuits _ hlt
    by_cases hne : e = d
    · rw [hne] at hlt
      exact lt_irrefl _ hlt
    · exact lt_asymm hlt (hrule.foremost e he hsuits hne)
  · intro hled
    refine ⟨h.mem, h.suits, fun e he hsuits hne => ?_⟩
    by_cases hidentifier : LedByIdentifier group e
    · exact lt_of_le_of_ne (not_lt.mp (hled e he hsuits hidentifier)) (standing_ne hn h.mem he hne)
    · calc standing (asked group) sort d ≤ standing (ordinary group) sort d := standing_asked_le group sort d
        _ < standing (ordinary group) sort e := h.foremost e he hsuits hne
        _ = standing (asked group) sort e := (standing_asked_eq hidentifier).symm

/-- Of definitions with names of their own an index is chosen for a group just when a value index has all of its fields
other than identifiers. The one that is chosen is the only one that stands before all others of these by the rule of
preference where identifiers do not count as constrained. Where they count it stands before all others if and only if
no index that a constrained identifier leads stands before it. Neither the order of the definitions nor the order and
repetition of conditions makes a difference. -/
theorem chooseIndex_foremost (definitions : List Definition) (sort : List SortKey) (group : List (String × Condition))
    (hn : (definitions.map (·.name)).Nodup) :
    (Succeeds (chooseIndex definitions sort group) ↔ ∃ d ∈ definitions, Suits group d) ∧
    (∀ d, chooseIndex definitions sort group = .ok d ↔ IsForemost (ordinary group) sort definitions group d) ∧
    (∀ d, chooseIndex definitions sort group = .ok d →
      (IsForemost (asked group) sort definitions group d ↔
        ∀ e ∈ definitions, Suits group e → LedByIdentifier group e →
          ¬ standing (asked group) sort e < standing (asked group) sort d)) ∧
    ∀ ds group', ds.Perm definitions → (∀ path, path ∈ asked group' ↔ path ∈ asked group) →
      chooseIndex ds sort group' = chooseIndex definitions sort group :=
  ⟨succeeds_chooseIndex, fun _ => chooseIndex_iff_isForemost hn,
    fun _ h => isForemost_asked_iff hn (isForemost_of_chooseIndex hn h),
    fun _ _ hperm hsame => chooseIndex_rearranged hn hperm hsame⟩

/-- Three indexes, of which two have a leading field that the group constrains. -/
def wide : Definition := { name := "a_wide", kind := .value, fields := [⟨"pet", none⟩, ⟨"age", none⟩, ⟨"name", none⟩] }

def leading : Definition :=
  { name := "b_lead", kind := .value, fields := [⟨"age", none⟩, ⟨"name", none⟩, ⟨"pet", none⟩] }

def small : Definition := { name := "c_small", kind := .value, fields := [⟨"age", none⟩, ⟨"name", none⟩] }

def namedAge : List (String × Condition) :=
  [("age", .compare .eq (.number (.int 3))), ("name", .compare .eq (.string "x"))]

/-- The smaller of the two is chosen, however the indexes come and whether a condition is repeated. The rule prefers it
too. -/
theorem chooseIndex_foremost_small : ([wide, leading, small].map (·.name)).Nodup ∧
    chooseIndex [small, wide, leading] [] (namedAge.reverse ++ namedAge) = .ok small ∧
    IsForemost (asked namedAge) [] [wide, leading, small] namedAge small := by
  have hn : ([wide, leading, small].map (·.name)).Nodup := by decide
  have hchosen : (chooseIndex [wide, leading, small] [] namedAge).toOption = some small := by decide +kernel
  obtain ⟨_, _, hrule, hsame⟩ := chooseIndex_foremost [wide, leading, small] [] namedAge hn
  have hok := ok_of_toOption hchosen
  refine ⟨hn, ?_, (hrule small hok).mpr ?_⟩
  · rw [hsame [small, wide, leading] (namedAge.reverse ++ namedAge) (by decide) (by simp [asked]), hok]
  · rintro e _ _ ⟨path, hpath, hbuiltin, _⟩
    have hplain : ∀ path ∈ asked namedAge, isBuiltin path = false := by decide +kernel
    rw [hplain path hpath] at hbuiltin
    cases hbuiltin

/-- An index by name, and one that an identifier leads. -/
def byName : Definition := { name := "a", kind := .value, fields := [⟨"name", none⟩] }

def byIdentifier : Definition := { name := "b", kind := .value, fields := [⟨"_id", none⟩, ⟨"name", none⟩] }

/-- The planner does not follow the rule where an identifier leads: for a condition on the identifier it takes the index
by name, though the leading field of the other is constrained. -/
theorem not_chooseIndex_foremost_identifier : ¬ ∀ (definitions : List Definition) (sort : List SortKey)
    (group : List (String × Condition)) (d : Definition), (definitions.map (·.name)).Nodup →
    chooseIndex definitions sort group = .ok d → IsForemost (asked group) sort definitions group d := by
  intro h
  have hchosen : (chooseIndex [byName, byIdentifier] [] [("_id", .compare .eq (.string "x"))]).toOption =
      some byName := by decide +kernel
  have hrule := h [byName, byIdentifier] [] [("_id", .compare .eq (.string "x"))] byName (by decide)
    (ok_of_toOption hchosen)
  have hlt := hrule.foremost byIdentifier (by simp) ⟨rfl, by decide⟩ (by decide)
  have hflag := (Prod.Lex.lt_iff.mp hlt).resolve_right fun heq => absurd heq.1 (by decide +kernel)
  exact absurd hflag (by decide +kernel)

end Planner

end DocIndex
