import DocIndex.Proofs.Query.Alike
import DocIndex.Proofs.Query.Bindings
import Mathlib.Logic.Equiv.Basic

/-! # Texts without literals

The text of a query depends on the shape of its plan only. Neither operands nor searches become part of it, no
page does, and no field path either, because fields are kept in columns that are named after their positions.
-/

namespace DocIndex

variable {ρ : String → String} {d : Definition} {path : String}

/-! ## Definitions under a renaming -/

def IndexField.renamed (ρ : String → String) (f : IndexField) : IndexField := { f with path := ρ f.path }

def Definition.renamed (ρ : String → String) (d : Definition) : Definition :=
  { d with fields := d.fields.map (IndexField.renamed ρ) }

/-- The second definition is the first one with its fields renamed. -/
abbrev Renamed (ρ : String → String) (d e : Definition) : Prop := e = d.renamed ρ

namespace Definition

theorem resembles_of_renamed {e : Definition} (h : Renamed ρ d e) : d.Resembles ρ e := by
  subst h
  refine ⟨rfl, rfl, ?_⟩
  rw [paths, paths, renamed, List.map_map, List.map_map]
  rfl

section

variable (hρ : Renames ρ)

include hρ

theorem columnsFrom_renamed (position : Nat) (fields : List IndexField) :
    columnsFrom position (fields.map (IndexField.renamed ρ)) =
      (columnsFrom position fields).map fun p => (p.1.renamed ρ, p.2) := by
  induction fields generalizing position with
  | nil => rfl
  | cons f rest ih =>
    have hbuiltin : (f.renamed ρ).isBuiltin = f.isBuiltin := hρ.isBuiltin_eq f.path
    rw [List.map_cons, columnsFrom, columnsFrom, hbuiltin, ih]
    split <;> rfl

theorem beq_renamed (p path : String) : (ρ p == ρ path) = (p == path) := by
  rw [Bool.eq_iff_iff, beq_iff_eq, beq_iff_eq]
  exact hρ.injective.eq_iff

theorem columnFor?_renamed (d : Definition) (path : String) :
    (d.renamed ρ).columnFor? (ρ path) = d.columnFor? path := by
  unfold columnFor?
  rw [hρ.isBuiltin_eq]
  split
  · rename_i hbuiltin
    rw [isBuiltin, Bool.or_eq_true, beq_iff_eq, beq_iff_eq] at hbuiltin
    rcases hbuiltin with rfl | rfl
    · rw [hρ.id_eq]
    · rw [hρ.rev_eq]
  · unfold fieldColumns renamed
    rw [columnsFrom_renamed hρ, List.find?_map, Option.map_map]
    have hpath : (fun p : IndexField × String => p.1.path == ρ path) ∘
        (fun p : IndexField × String => (p.1.renamed ρ, p.2)) = fun p => p.1.path == path :=
      funext fun p => beq_renamed hρ p.1.path path
    rw [hpath]
    rfl

theorem typeOf?_renamed (d : Definition) (path : String) : (d.renamed ρ).typeOf? (ρ path) = d.typeOf? path := by
  unfold typeOf? field? renamed
  rw [hρ.isBuiltin_eq, List.find?_map]
  have hpath : (fun f : IndexField => f.path == ρ path) ∘ IndexField.renamed ρ = fun f => f.path == path :=
    funext fun f => beq_renamed hρ f.path path
  rw [hpath]
  cases d.fields.find? (·.path == path) <;> rfl

theorem admits_renamed (d : Definition) (path : String) {v w : Json} (h : v.SameType w) :
    (d.renamed ρ).admits (ρ path) w = d.admits path v := by
  have htype : FieldType.of? w = FieldType.of? v := by cases h <;> rfl
  rw [admits, admits, typeOf?_renamed hρ, htype]

theorem column?_alike (d : Definition) (path : String) :
    Agree Eq (d.column? path) ((d.renamed ρ).column? (ρ path)) := by
  unfold column?
  rw [columnFor?_renamed hρ]
  cases d.columnFor? path with
  | none => exact .error _ _
  | some column => exact .ok rfl

end

end Definition

/-! ## Conditions and sets -/

def Predicate.Same (p q : Predicate) : Prop := p.text = q.text ∧ p.slots.length = q.slots.length

namespace IdSet

/-- Sets of one text, with as many values. -/
def Same (s t : IdSet) : Prop := s.text = t.text ∧ s.slots.length = t.slots.length

theorem same_rows (table : String) {ps qs : List Predicate} (h : List.Forall₂ Predicate.Same ps qs) :
    (rows table ps).Same (rows table qs) := by
  have htext : ps.map Predicate.text = qs.map Predicate.text := by
    rw [← List.forall₂_eq_eq_eq, List.forall₂_map_left_iff, List.forall₂_map_right_iff]
    exact h.imp fun _ _ hpq => hpq.1
  have hslots : ps.map (·.slots.length) = qs.map (·.slots.length) := by
    rw [← List.forall₂_eq_eq_eq, List.forall₂_map_left_iff, List.forall₂_map_right_iff]
    exact h.imp fun _ _ hpq => hpq.2
  have hwhere : whereText ps = whereText qs := by
    cases h with
    | nil => rfl
    | cons _ _ => simp only [whereText, htext]
  refine ⟨by rw [text, text, hwhere], ?_⟩
  rw [slots, slots, List.length_flatMap, List.length_flatMap, hslots]

theorem Same.without {s t s' t' : IdSet} (h : s.Same t) (h' : s'.Same t') : (without s s').Same (without t t') := by
  refine ⟨by rw [text, text, h.1, h'.1], ?_⟩
  rw [slots, slots, List.length_append, List.length_append, h.2, h'.2]

theorem same_parts {ss ts : List IdSet} (h : List.Forall₂ Same ss ts) :
    texts ss = texts ts ∧ (slotsOf ss).length = (slotsOf ts).length := by
  induction h with
  | nil => exact ⟨rfl, rfl⟩
  | cons hst _ ih =>
    refine ⟨by rw [texts, texts, hst.1, ih.1], ?_⟩
    rw [slotsOf, slotsOf, List.length_append, List.length_append, hst.2, ih.2]

theorem same_intersect {ss ts : List IdSet} (h : List.Forall₂ Same ss ts) : (intersect ss).Same (intersect ts) :=
  ⟨by rw [text, text, (same_parts h).1], (same_parts h).2⟩

theorem same_union {ss ts : List IdSet} (h : List.Forall₂ Same ss ts) : (union ss).Same (union ts) :=
  ⟨by rw [text, text, (same_parts h).1], (same_parts h).2⟩

end IdSet

/-! ## Groups and plans -/

namespace Compile

open Condition

variable {c e : Condition} {g g' : List (String × Condition)}

theorem bind?_alike {v w : Json} (h : v.SameType w) : Agree (fun _ _ => True) (bind? v) (bind? w) := by
  cases h with
  | refl =>
    cases bind? v with
    | error e => exact .error _ _
    | ok x => exact .ok trivial
  | bool a b => exact .ok trivial
  | number m n => exact .ok trivial
  | string s t => exact .ok trivial

theorem bindAll?_alike {vs ws : List Json} (h : List.Forall₂ Json.SameType vs ws) :
    Agree (fun xs ys => xs.length = ys.length) (bindAll? vs) (bindAll? ws) := by
  induction h with
  | nil => exact .ok rfl
  | cons hvw _ ih =>
    refine (bind?_alike hvw).bind fun x y _ => ?_
    exact ih.bind fun xs ys hlength => .ok (congrArg (· + 1) hlength)

section

variable (hρ : Renames ρ)

include hρ

theorem predicate?_alike (d : Definition) (path : String) (h : c.Alike e) :
    Agree Predicate.Same (predicate? d path c) (predicate? (d.renamed ρ) (ρ path) e) := by
  refine (Definition.column?_alike hρ d path).bind fun column column' hcolumn => ?_
  subst hcolumn
  cases h with
  | compare op hvw =>
    simp only [Definition.admits_renamed hρ d path hvw]
    split
    · exact (bind?_alike hvw).bind fun x y _ => .ok ⟨rfl, rfl⟩
    · exact .ok ⟨rfl, rfl⟩
  | @oneOf vs ws hvs =>
    have hfilter : List.Forall₂ Json.SameType (vs.filter (d.admits path))
        (ws.filter ((d.renamed ρ).admits (ρ path))) := by
      refine List.rel_filter (fun v w hvw => ?_) hvs
      simp only [Definition.admits_renamed hρ d path hvw]
    refine (bindAll?_alike hfilter).bind fun xs ys hlength => ?_
    rcases xs with _ | ⟨x, xs⟩
    · rw [List.length_eq_zero_iff.mp hlength.symm]
      exact .ok ⟨rfl, rfl⟩
    · rcases ys with _ | ⟨y, ys⟩
      · cases hlength
      · refine .ok ⟨?_, ?_⟩
        · rw [Predicate.text, Predicate.text, hlength]
        · have hslots : ∀ opening (vs : List SqlValue), (Slot.listed opening vs).length = vs.length := by
            intro opening vs
            have hvalues := congrArg List.length (Slot.map_value_listed opening vs)
            rwa [List.length_map] at hvalues
          rw [Predicate.slots, Predicate.slots, hslots, hslots, hlength]
  | present expected =>
    cases expected with
    | true => exact .ok ⟨rfl, rfl⟩
    | false => exact .error _ _
  | not _ => exact .error _ _

theorem predicates?_alike (d : Definition) (hg : List.Forall₂ (AlikeAt ρ) g g') :
    Agree (List.Forall₂ Predicate.Same) (predicates? d g) (predicates? (d.renamed ρ) g') := by
  induction hg with
  | nil => exact .ok .nil
  | @cons p q g g' hpq _ ih =>
    obtain ⟨path, e⟩ := q
    obtain ⟨rfl, hc⟩ := hpq
    refine (predicate?_alike hρ d p.1 hc).bind fun first first' hfirst => ?_
    exact ih.bind fun more more' hmore => .ok (.cons hfirst hmore)

theorem negative?_alike (d : Definition) (path : String) (h : c.Alike e) :
    Agree IdSet.Same (negative? d path c) (negative? (d.renamed ρ) (ρ path) e) := by
  refine (Definition.column?_alike hρ d path).bind fun column column' hcolumn => ?_
  subst hcolumn
  have hrefl : ∀ ps, (IdSet.rows d.tableName ps).Same (IdSet.rows (d.renamed ρ).tableName ps) := fun _ => ⟨rfl, rfl⟩
  cases h with
  | not hinner =>
    refine (predicate?_alike hρ d path hinner).bind fun p q hpq => ?_
    exact .ok ((hrefl _).without (IdSet.same_rows d.tableName (.cons hpq .nil)))
  | compare op _ => exact .ok ((hrefl _).without (hrefl _))
  | oneOf _ => exact .ok ((hrefl _).without (hrefl _))
  | present expected => exact .ok ((hrefl _).without (hrefl _))

theorem negatives?_alike (d : Definition) (hg : List.Forall₂ (AlikeAt ρ) g g') :
    Agree (List.Forall₂ IdSet.Same) (negatives? d g) (negatives? (d.renamed ρ) g') := by
  induction hg with
  | nil => exact .ok .nil
  | @cons p q g g' hpq _ ih =>
    obtain ⟨path, e⟩ := q
    obtain ⟨rfl, hc⟩ := hpq
    refine (negative?_alike hρ d p.1 hc).bind fun first first' hfirst => ?_
    exact ih.bind fun more more' hmore => .ok (.cons hfirst hmore)

theorem scan?_alike (d : Definition) (hg : List.Forall₂ (AlikeAt ρ) g g') :
    Agree IdSet.Same (scan? d g) (scan? (d.renamed ρ) g') := by
  have hsign : ∀ p q, AlikeAt ρ p q → q.2.isNegative = p.2.isNegative := by
    rintro ⟨path, c⟩ ⟨path', e⟩ ⟨_, h⟩
    have hce : c.Alike e := h
    cases hce <;> rfl
  have hpositive : List.Forall₂ (AlikeAt ρ) (g.filter (!·.2.isNegative)) (g'.filter (!·.2.isNegative)) :=
    List.rel_filter (fun p q hpq => by simp only [hsign p q hpq]) hg
  have hnegative : List.Forall₂ (AlikeAt ρ) (g.filter (·.2.isNegative)) (g'.filter (·.2.isNegative)) :=
    List.rel_filter (fun p q hpq => by simp only [hsign p q hpq]) hg
  have hempty : ∀ {g g' : List (String × Condition)}, List.Forall₂ (AlikeAt ρ) g g' → g'.isEmpty = g.isEmpty := by
    intro g g' h
    cases h <;> rfl
  have hrest : ∀ rows rows', List.Forall₂ IdSet.Same rows rows' → Agree IdSet.Same
      (do .ok (IdSet.intersect (rows ++ (← negatives? d (g.filter (·.2.isNegative))))))
      (do .ok (IdSet.intersect (rows' ++ (← negatives? (d.renamed ρ) (g'.filter (·.2.isNegative)))))) := by
    intro rows rows' hrows
    refine (negatives?_alike hρ d hnegative).bind fun sets sets' hsets => ?_
    exact .ok (IdSet.same_intersect (List.rel_append hrows hsets))
  unfold scan?
  simp only
  rw [hempty hpositive, hempty hnegative]
  split
  · exact hrest [] [] .nil
  · refine (predicates?_alike hρ d hpositive).bind fun ps qs hpqs => ?_
    exact hrest _ _ (.cons (IdSet.same_rows d.tableName hpqs) .nil)

end

mutual

theorem node?_alike (hρ : Renames ρ) : ∀ {n m : PlanNode}, n.Alike (Renamed ρ) ρ m →
    Agree IdSet.Same (node? n) (node? m)
  | .scan d _, _, ⟨_, _, rfl, rfl, hg⟩ => scan?_alike hρ d hg
  | .text _ _, _, ⟨_, _, rfl, rfl⟩ => .ok ⟨rfl, rfl⟩
  | .and _, _, ⟨_, rfl, h⟩ => (nodes?_alike hρ h).bind fun _ _ hsets => .ok (IdSet.same_intersect hsets)
  | .or _, _, ⟨_, rfl, h⟩ => (nodes?_alike hρ h).bind fun _ _ hsets => .ok (IdSet.same_union hsets)

theorem nodes?_alike (hρ : Renames ρ) : ∀ {ns ms : List PlanNode}, PlanNode.AllAlike (Renamed ρ) ρ ns ms →
    Agree (List.Forall₂ IdSet.Same) (nodes? ns) (nodes? ms)
  | [], _, rfl => .ok .nil
  | _ :: _, _, ⟨_, _, rfl, hm, h⟩ =>
    (node?_alike hρ hm).bind fun _ _ hfirst => (nodes?_alike hρ h).bind fun _ _ hmore => .ok (.cons hfirst hmore)

end

theorem sortColumns?_alike (hρ : Renames ρ) (d : Definition) (sort : List SortKey) :
    Agree Eq (sortColumns? d sort) (sortColumns? (d.renamed ρ) (sort.map (SortKey.renamed ρ))) := by
  induction sort with
  | nil => exact .ok rfl
  | cons key rest ih =>
    refine (Definition.column?_alike hρ d key.path).bind fun column column' hcolumn => ?_
    exact ih.bind fun columns columns' hcolumns => .ok (by rw [hcolumn, hcolumns])

theorem branch_renamed (hρ : Renames ρ) (order : Definition) (sort : List SortKey) (columns : List String)
    (d : Definition) : branch (order.renamed ρ) (sort.map (SortKey.renamed ρ)) columns (d.renamed ρ) =
      branch order sort columns d := by
  unfold branch
  rw [List.zip_map_left, List.map_map]
  refine congrArg (Branch.mk d.tableName) (List.map_congr_left fun p _ => ?_)
  obtain ⟨key, column⟩ := p
  have hbuiltin : isBuiltin (key.renamed ρ).path = isBuiltin key.path := hρ.isBuiltin_eq key.path
  simp only [Function.comp_apply, Prod.map, id, hbuiltin]
  rfl

end Compile

/-! ## Statements -/

structure Statement.Same (s t : Statement) : Prop where
  branches_eq : t.branches = s.branches
  ids : s.ids.Same t.ids
  directions_eq : t.directions = s.directions
  breakTies_eq : t.breakTies = s.breakTies

theorem Statement.Same.text_eq {s t : Statement} (h : s.Same t) : t.text = s.text := by
  have horder : t.orderText = s.orderText := by
    unfold orderText sortNames
    rw [h.branches_eq, h.directions_eq, h.breakTies_eq]
  rw [text, text, horder, h.branches_eq, h.ids.1]

namespace Plan

open Compile

theorem distinct_renamed (ρ : String → String) (seen : List String) (ds : List Definition) :
    distinct seen (ds.map (Definition.renamed ρ)) = (distinct seen ds).map (Definition.renamed ρ) := by
  induction ds generalizing seen with
  | nil => rfl
  | cons d rest ih =>
    have hname : (d.renamed ρ).name = d.name := rfl
    rw [List.map_cons, distinct, distinct, hname]
    split
    · exact ih seen
    · rw [List.map_cons, ih]

variable {p q : Plan}

theorem Alike.indexes_eq (h : p.Alike (Renamed ρ) ρ q) : q.indexes = p.indexes.map (Definition.renamed ρ) := by
  have hmap : ∀ {ds es : List Definition}, List.Forall₂ (Renamed ρ) ds es → es = ds.map (Definition.renamed ρ) := by
    intro ds es hds
    induction hds with
    | nil => rfl
    | cons hd _ ih => rw [hd, ih, List.map_cons]
  unfold indexes
  rw [h.order, hmap h.root.scans, hmap h.root.texts, ← List.map_cons, ← List.map_append, distinct_renamed]

theorem statement?_alike (hρ : Renames ρ) (h : p.Alike (Renamed ρ) ρ q) (skip skip' : Nat)
    (limit? limit?' : Option Nat) :
    Agree Statement.Same (p.statement? skip limit?) (q.statement? skip' limit?') := by
  have hcolumns := sortColumns?_alike hρ p.orderIndex p.sort
  rw [← h.sort_eq, ← h.order] at hcolumns
  refine hcolumns.bind fun columns columns' hcolumns => ?_
  subst hcolumns
  refine (node?_alike hρ h.root).bind fun ids ids' hids => .ok ⟨?_, hids, ?_, ?_⟩
  · rw [h.indexes_eq, h.order, h.sort_eq, List.map_map]
    exact List.map_congr_left fun d _ => branch_renamed hρ p.orderIndex p.sort columns d
  · rw [h.sort_eq, List.map_map]
    rfl
  · have hid : ∀ key : SortKey, ((key.renamed ρ).path == idColumn) = (key.path == idColumn) := by
      intro key
      have hbeq := Definition.beq_renamed hρ key.path idColumn
      rwa [hρ.id_eq] at hbeq
    simp only [h.sort_eq, List.any_map, Function.comp_def, hid]

theorem render_alike (hρ : Renames ρ) (h : p.Alike (Renamed ρ) ρ q) (skip skip' : Nat)
    (limit? limit?' : Option Nat) :
    Agree (fun f g => g.text = f.text ∧ g.values.length = f.values.length) (p.render skip limit?)
      (q.render skip' limit?') := by
  refine (statement?_alike hρ h skip skip' limit? limit?').bind fun s t hst => ?_
  rw [s.fragment_eq, t.fragment_eq]
  refine .ok ⟨hst.text_eq, ?_⟩
  simp only [Fragment.ofSlots, Statement.slots, List.length_map, List.length_append, hst.ids.2]
  rfl

theorem make_renamed (hρ : Renames ρ) {s t : Selector} (h : s.Alike ρ t) (definitions : List Definition)
    (sort : List SortKey) : Agree (Alike (Renamed ρ) ρ) (make s definitions sort)
      (make t (definitions.map (Definition.renamed ρ)) (sort.map (SortKey.renamed ρ))) := by
  have hdefinitions : List.Forall₂ (Renamed ρ) definitions (definitions.map (Definition.renamed ρ)) := by
    rw [List.forall₂_map_right_iff, List.forall₂_same]
    exact fun _ _ => rfl
  exact Planner.make_alike hρ (fun _ _ => Definition.resembles_of_renamed) hdefinitions h sort

/-- The text of a statement depends on the shape of the plan only. Plans that differ in operands of the same types, in
searches and by a renaming of fields have one text and as many values, for any pages. Selectors that differ so have
such plans over the renamed definitions. Every plan of a selector that was read has a text. -/
theorem render_of_shape (hρ : Renames ρ) :
    (∀ p q : Plan, p.Alike (Renamed ρ) ρ q → ∀ skip skip' limit? limit?',
      Agree (fun f g => g.text = f.text ∧ g.values.length = f.values.length) (p.render skip limit?)
        (q.render skip' limit?')) ∧
    (∀ (s t : Selector) (definitions : List Definition) (sort : List SortKey), s.Alike ρ t →
      Agree (Alike (Renamed ρ) ρ) (make s definitions sort)
        (make t (definitions.map (Definition.renamed ρ)) (sort.map (SortKey.renamed ρ)))) ∧
    ∀ (v : Json) (s : Selector) (definitions : List Definition) (sort : List SortKey) (p : Plan) skip limit?,
      Selector.ofJson? v = .ok s → make s definitions sort = .ok p → ∃ f, p.render skip limit? = .ok f := by
  refine ⟨?_, ?_, ?_⟩
  · intro p q h skip skip' limit? limit?'
    exact render_alike hρ h skip skip' limit? limit?'
  · intro s t definitions sort h
    exact make_renamed hρ h definitions sort
  · intro v s definitions sort p skip limit? hs hp
    exact ⟨_, (compiles_of_make (Selector.ofJson?_requested hs) hp).render_eq skip limit?⟩

theorem renames_swap : Renames (Equiv.swap "age" "name") :=
  ⟨(Equiv.swap "age" "name").injective, by decide, by decide⟩

theorem render_of_shape_swap : ∃ p q f g,
    make (.field "age" (.compare .gt (.number (.int 30)))) [Query.oddlyNamed] [] = .ok p ∧
    make (.field "name" (.compare .gt (.number (.int 18))))
      [Query.oddlyNamed.renamed (Equiv.swap "age" "name")] [] = .ok q ∧
    p.render 0 none = .ok f ∧ q.render 2 (some 1) = .ok g ∧ g.text = f.text ∧
    g.values.length = f.values.length := by
  obtain ⟨hrender, hmake, htext⟩ := render_of_shape renames_swap
  obtain ⟨p, hp⟩ : ∃ p, make (.field "age" (.compare .gt (.number (.int 30)))) [Query.oddlyNamed] [] = .ok p := ⟨_, rfl⟩
  have halike : (Selector.field "age" (.compare .gt (.number (.int 30)))).Alike (Equiv.swap "age" "name")
      (.field "name" (.compare .gt (.number (.int 18)))) :=
    ⟨.compare .gt (.number (.int 18)), by rw [Equiv.swap_apply_left], .compare .gt (.number _ _)⟩
  have hplans := hmake _ _ [Query.oddlyNamed] [] halike
  rw [hp] at hplans
  obtain ⟨q, hq, hpq⟩ := hplans.exists_ok
  obtain ⟨f, hf⟩ := htext (.object [("age", .object [("$gt", .number (.int 30))])]) _ _ _ p 0 none rfl hp
  have htexts := hrender p q hpq 0 2 none (some 1)
  rw [hf] at htexts
  obtain ⟨g, hg, hsame⟩ := htexts.exists_ok
  exact ⟨p, q, f, g, hp, hq, hf, hg, hsame⟩

end Plan

end DocIndex
