import DocIndex.Proofs.Query.Planning
import Mathlib.Data.List.Forall2

/-! # Selectors of one shape

Two selectors are alike if one comes from the other by a renaming of fields and by other operands of the same
types. Over definitions that look alike under the renaming they have plans that are alike: which indexes are
chosen depends neither on the operands nor on what fields are called.
-/

namespace DocIndex

/-- A renaming of fields: different fields stay different, and the identifiers keep their names. -/
structure Renames (ρ : String → String) : Prop where
  injective : Function.Injective ρ
  id_eq : ρ idColumn = idColumn
  rev_eq : ρ revColumn = revColumn

theorem Renames.isBuiltin_eq {ρ : String → String} (h : Renames ρ) (path : String) :
    isBuiltin (ρ path) = isBuiltin path := by
  have hsame : ∀ column, ρ column = column → (ρ path == column) = (path == column) := by
    intro column hcolumn
    rw [Bool.eq_iff_iff, beq_iff_eq, beq_iff_eq]
    exact ⟨fun heq => h.injective (heq.trans hcolumn.symm), fun heq => by rw [heq, hcolumn]⟩
  rw [isBuiltin, isBuiltin, hsame _ h.id_eq, hsame _ h.rev_eq]

theorem Renames.refl : Renames id := ⟨Function.injective_id, rfl, rfl⟩

/-- Scalars of one type, or one and the same value. -/
inductive Json.SameType : Json → Json → Prop where
  | refl (v : Json) : SameType v v
  | bool (a b : Bool) : SameType (.bool a) (.bool b)
  | number (m n : Json.Number) : SameType (.number m) (.number n)
  | string (s t : String) : SameType (.string s) (.string t)

/-- Conditions with operands of the same types at the same places. -/
inductive Condition.Alike : Condition → Condition → Prop where
  | compare (op : Operator) {v w : Json} (h : v.SameType w) : Alike (.compare op v) (.compare op w)
  | oneOf {vs ws : List Json} (h : List.Forall₂ Json.SameType vs ws) : Alike (.oneOf vs) (.oneOf ws)
  | present (expected : Bool) : Alike (.present expected) (.present expected)
  | not {c e : Condition} (h : Alike c e) : Alike (.not c) (.not e)

theorem Condition.Alike.refl (c : Condition) : c.Alike c := by
  induction c with
  | compare op v => exact .compare op (.refl v)
  | oneOf vs => exact .oneOf (List.forall₂_same.mpr fun v _ => .refl v)
  | present expected => exact .present expected
  | not inner ih => exact .not ih

def Condition.AlikeAt (ρ : String → String) (p q : String × Condition) : Prop := q.1 = ρ p.1 ∧ p.2.Alike q.2

namespace Selector

mutual

/-- The selectors differ in operands of the same types, in search texts, and by the renaming of fields. -/
def Alike (ρ : String → String) : Selector → Selector → Prop
  | .and ss, t => ∃ ts, t = .and ts ∧ AllAlike ρ ss ts
  | .or ss, t => ∃ ts, t = .or ts ∧ AllAlike ρ ss ts
  | .field path c, t => ∃ e, t = .field (ρ path) e ∧ c.Alike e
  | .text _, t => ∃ search, t = .text search

def AllAlike (ρ : String → String) : List Selector → List Selector → Prop
  | [], ts => ts = []
  | s :: ss, ts => ∃ t rest, ts = t :: rest ∧ s.Alike ρ t ∧ AllAlike ρ ss rest

end

mutual

theorem Alike.refl : ∀ s : Selector, s.Alike id s
  | .and ss => ⟨ss, rfl, AllAlike.refl ss⟩
  | .or ss => ⟨ss, rfl, AllAlike.refl ss⟩
  | .field _ c => ⟨c, rfl, .refl c⟩
  | .text search => ⟨search, rfl⟩

theorem AllAlike.refl : ∀ ss : List Selector, AllAlike id ss ss
  | [] => rfl
  | s :: ss => ⟨s, ss, rfl, Alike.refl s, AllAlike.refl ss⟩

end

end Selector

/-- Two definitions look the same to a plan, up to the renaming of fields. -/
structure Definition.Resembles (ρ : String → String) (d e : Definition) : Prop where
  name_eq : e.name = d.name
  kind_eq : e.kind = d.kind
  paths_eq : e.paths = d.paths.map ρ

namespace PlanNode

mutual

/-- Plans of one shape, over definitions that are related. -/
def Alike (same : Definition → Definition → Prop) (ρ : String → String) : PlanNode → PlanNode → Prop
  | .scan d group, m => ∃ e group', m = .scan e group' ∧ same d e ∧ List.Forall₂ (Condition.AlikeAt ρ) group group'
  | .text d _, m => ∃ e search, m = .text e search ∧ same d e
  | .and ns, m => ∃ ms, m = .and ms ∧ AllAlike same ρ ns ms
  | .or ns, m => ∃ ms, m = .or ms ∧ AllAlike same ρ ns ms

def AllAlike (same : Definition → Definition → Prop) (ρ : String → String) : List PlanNode → List PlanNode → Prop
  | [], ms => ms = []
  | n :: ns, ms => ∃ m rest, ms = m :: rest ∧ n.Alike same ρ m ∧ AllAlike same ρ ns rest

end

variable {same : Definition → Definition → Prop} {ρ : String → String}

theorem allAlike_iff {ns ms : List PlanNode} : AllAlike same ρ ns ms ↔ List.Forall₂ (Alike same ρ) ns ms := by
  induction ns generalizing ms with
  | nil => rw [AllAlike, List.forall₂_nil_left_iff]
  | cons n rest ih =>
    rw [AllAlike, List.forall₂_cons_left_iff]
    simp only [ih]
    constructor
    · rintro ⟨m, more, rfl, hm, hmore⟩
      exact ⟨m, more, hm, hmore, rfl⟩
    · rintro ⟨m, more, hm, hmore, rfl⟩
      exact ⟨m, more, rfl, hm, hmore⟩

mutual

theorem Alike.scans : ∀ {n m : PlanNode}, n.Alike same ρ m → List.Forall₂ same n.scans m.scans
  | .scan _ _, _, ⟨_, _, rfl, hd, _⟩ => .cons hd .nil
  | .text _ _, _, ⟨_, _, rfl, _⟩ => .nil
  | .and _, _, ⟨_, rfl, h⟩ => AllAlike.scans h
  | .or _, _, ⟨_, rfl, h⟩ => AllAlike.scans h

theorem AllAlike.scans : ∀ {ns ms : List PlanNode}, AllAlike same ρ ns ms →
    List.Forall₂ same (scansOf ns) (scansOf ms)
  | [], _, rfl => .nil
  | _ :: _, _, ⟨_, _, rfl, hm, h⟩ => List.rel_append (Alike.scans hm) (AllAlike.scans h)

end

mutual

theorem Alike.searches : ∀ {n m : PlanNode}, n.Alike same ρ m →
    List.Forall₂ (fun s t => same s.1 t.1) n.searches m.searches
  | .scan _ _, _, ⟨_, _, rfl, _, _⟩ => .nil
  | .text _ _, _, ⟨_, _, rfl, hd⟩ => .cons hd .nil
  | .and _, _, ⟨_, rfl, h⟩ => AllAlike.searches h
  | .or _, _, ⟨_, rfl, h⟩ => AllAlike.searches h

theorem AllAlike.searches : ∀ {ns ms : List PlanNode}, AllAlike same ρ ns ms →
    List.Forall₂ (fun s t => same s.1 t.1) (searchesOf ns) (searchesOf ms)
  | [], _, rfl => .nil
  | _ :: _, _, ⟨_, _, rfl, hm, h⟩ => List.rel_append (Alike.searches hm) (AllAlike.searches h)

end

theorem Alike.texts {n m : PlanNode} (h : n.Alike same ρ m) : List.Forall₂ same n.texts m.texts := by
  rw [PlanNode.texts, PlanNode.texts, List.forall₂_map_left_iff, List.forall₂_map_right_iff]
  exact h.searches

end PlanNode

def SortKey.renamed (ρ : String → String) (key : SortKey) : SortKey := { key with path := ρ key.path }

structure Plan.Alike (same : Definition → Definition → Prop) (ρ : String → String) (p q : Plan) : Prop where
  root : p.root.Alike same ρ q.root
  order : same p.orderIndex q.orderIndex
  sort_eq : q.sort = p.sort.map (SortKey.renamed ρ)

/-! ## Definitions that look alike -/

section

variable {ρ : String → String} (hρ : Renames ρ) {d e : Definition}

include hρ

theorem Definition.Resembles.covers (h : d.Resembles ρ e) (path : String) : e.covers (ρ path) = d.covers path := by
  have hany : ∀ (d : Definition) path, (d.fields.any (·.path == path)) = d.paths.any (· == path) := by
    intro d path
    rw [Definition.paths, List.any_map]
    rfl
  have hbeq : ∀ p, (ρ p == ρ path) = (p == path) := by
    intro p
    rw [Bool.eq_iff_iff, beq_iff_eq, beq_iff_eq]
    exact hρ.injective.eq_iff
  rw [Definition.covers, Definition.covers, hρ.isBuiltin_eq, hany, hany, h.paths_eq, List.any_map]
  exact congrArg _ (List.any_congr rfl fun p => hbeq p)

theorem Planner.mem_constrained_of_alike {g g' : List (String × Condition)}
    (hg : List.Forall₂ (Condition.AlikeAt ρ) g g') (path : String) :
    path ∈ constrained g' ↔ ∃ p ∈ constrained g, ρ p = path := by
  simp only [mem_constrained]
  have hpaths : g'.map (·.1) = g.map fun p => ρ p.1 := by
    induction hg with
    | nil => rfl
    | cons h _ ih => rw [List.map_cons, List.map_cons, h.1, ih]
  have hmem : ∀ {g : List (String × Condition)} {path}, (∃ c, (path, c) ∈ g) ↔ path ∈ g.map (·.1) := by simp
  rw [hmem, hpaths, List.mem_map]
  constructor
  · rintro ⟨⟨⟨p, c⟩, hp, rfl⟩, hb⟩
    rw [hρ.isBuiltin_eq] at hb
    exact ⟨p, ⟨⟨c, hp⟩, hb⟩, rfl⟩
  · rintro ⟨p, ⟨⟨c, hp⟩, hb⟩, rfl⟩
    exact ⟨⟨(p, c), hp, rfl⟩, by rw [hρ.isBuiltin_eq]; exact hb⟩

end

theorem find?_rel {α β : Type} {r : α → β → Prop} {p : α → Bool} {q : β → Bool} {xs : List α}
    {ys : List β} (hpq : ∀ a b, r a b → p a = q b) (h : List.Forall₂ r xs ys) :
    Option.Rel r (xs.find? p) (ys.find? q) := by
  induction h with
  | nil => exact .none
  | @cons a b xs ys hab _ ih =>
    rw [List.find?_cons, List.find?_cons, hpq a b hab]
    cases q b with
    | true => exact .some hab
    | false => exact ih

namespace Planner

open PlanNode

variable {same : Definition → Definition → Prop} {ρ : String → String} (hρ : Renames ρ)
variable (hsame : ∀ d e, same d e → d.Resembles ρ e)
variable {ds es : List Definition} {sort : List SortKey} {ps qs : List String} {g g' : List (String × Condition)}
variable {d e : Definition}

/-! ## Choices -/

section

include hρ

theorem rank_alike (hqs : ∀ path, path ∈ qs ↔ ∃ p ∈ ps, ρ p = path) (h : d.Resembles ρ e) :
    rank qs (sort.map (SortKey.renamed ρ)) e = rank ps sort d := by
  have hlength : e.fields.length = d.fields.length := by
    have hpaths := congrArg List.length h.paths_eq
    simpa only [Definition.paths, List.length_map] using hpaths
  have hsort : ((sort.map (SortKey.renamed ρ)).all fun key => e.covers key.path) =
      sort.all fun key => d.covers key.path := by
    rw [List.all_map]
    exact List.all_congr rfl fun key => h.covers hρ key.path
  have hcontains : ∀ path, qs.contains (ρ path) = ps.contains path := by
    intro path
    rw [Bool.eq_iff_iff, List.contains_iff_mem, List.contains_iff_mem, hqs]
    constructor
    · rintro ⟨p, hp, heq⟩
      rwa [← hρ.injective heq]
    · exact fun hp => ⟨path, hp, rfl⟩
  have hhead : (e.fields.head?).map (·.path) = (d.fields.head?).map fun f => ρ f.path := by
    have hpaths := congrArg List.head? h.paths_eq
    simpa only [Definition.paths, List.head?_map, Option.map_map, Function.comp_def] using hpaths
  unfold rank
  rw [hlength, hsort, h.name_eq]
  congr 1
  cases hd : d.fields.head? with
  | none =>
    rw [hd, Option.map_none, Option.map_eq_none_iff] at hhead
    rw [hhead]
  | some f =>
    rw [hd, Option.map_some, Option.map_eq_some_iff] at hhead
    obtain ⟨f', hf', hpath⟩ := hhead
    simp only [hf', hpath, hcontains]

include hsame

theorem best_alike (hqs : ∀ path, path ∈ qs ↔ ∃ p ∈ ps, ρ p = path) (h : List.Forall₂ same ds es) :
    Option.Rel same (best ps sort ds) (best qs (sort.map (SortKey.renamed ρ)) es) := by
  induction h with
  | nil => exact .none
  | @cons d e ds es hde _ ih =>
    have hrank : ∀ d e, same d e → rank qs (sort.map (SortKey.renamed ρ)) e = rank ps sort d :=
      fun d e h => rank_alike hρ hqs (hsame d e h)
    rw [best, best]
    generalize best ps sort ds = b at ih ⊢
    generalize best qs (sort.map (SortKey.renamed ρ)) es = b' at ih ⊢
    cases ih with
    | none => exact .some hde
    | @some d' e' hde' =>
      simp only [hrank d e hde, hrank d' e' hde']
      split
      · exact .some hde'
      · exact .some hde

theorem candidates_alike (hqs : ∀ path, path ∈ qs ↔ ∃ p ∈ ps, ρ p = path) (h : List.Forall₂ same ds es) :
    List.Forall₂ same (candidates ps ds) (candidates qs es) := by
  refine List.rel_filter ?_ h
  intro d e hde
  have hcovers := (hsame d e hde).covers hρ
  simp only [(hsame d e hde).kind_eq, Bool.and_eq_true, List.all_eq_true, hqs]
  refine and_congr_right fun _ => ?_
  constructor
  · rintro hall path ⟨p, hp, rfl⟩
    rw [hcovers]
    exact hall p hp
  · intro hall p hp
    rw [← hcovers]
    exact hall (ρ p) ⟨p, hp, rfl⟩

theorem chooseIndex_alike (hg : List.Forall₂ (Condition.AlikeAt ρ) g g') (h : List.Forall₂ same ds es) :
    Agree same (chooseIndex ds sort g) (chooseIndex es (sort.map (SortKey.renamed ρ)) g') := by
  have hpaths := mem_constrained_of_alike hρ hg
  have hbest : Option.Rel same (best (constrained g) sort (candidates (constrained g) ds)) _ :=
    best_alike hρ hsame hpaths (candidates_alike hρ hsame hpaths h)
  unfold chooseIndex
  simp only
  generalize best (constrained g) sort (candidates (constrained g) ds) = b at hbest ⊢
  generalize best (constrained g') _ (candidates (constrained g') es) = b' at hbest ⊢
  cases hbest with
  | none => exact .error _ _
  | some hde => exact .ok hde

end

/-! ## Steps of the planner -/

structure Parts.Alike (same : Definition → Definition → Prop) (ρ : String → String) (parts parts' : Parts) : Prop where
  group : List.Forall₂ (Condition.AlikeAt ρ) parts.group parts'.group
  nodes : List.Forall₂ (PlanNode.Alike same ρ) parts.nodes parts'.nodes

theorem intersection_alike {ns ms : List PlanNode} (h : List.Forall₂ (PlanNode.Alike same ρ) ns ms) :
    (intersection ns).Alike same ρ (intersection ms) := by
  cases h with
  | nil => exact ⟨[], rfl, rfl⟩
  | cons hn hrest =>
    cases hrest with
    | nil => exact hn
    | cons hm hmore => exact ⟨_, rfl, allAlike_iff.mpr (.cons hn (.cons hm hmore))⟩

section

include hρ hsame

theorem conclude_alike (hds : List.Forall₂ same ds es) {parts parts' : Parts} (h : parts.Alike same ρ parts') :
    Agree (PlanNode.Alike same ρ) (conclude ds sort parts)
      (conclude es (sort.map (SortKey.renamed ρ)) parts') := by
  have hempty : ∀ {α β : Type} {r : α → β → Prop} {xs : List α} {ys : List β}, List.Forall₂ r xs ys →
      ys.isEmpty = xs.isEmpty := by
    intro α β r xs ys hr
    cases hr <;> rfl
  rw [conclude_eq, conclude_eq, hempty h.group, hempty h.nodes]
  split
  · exact .ok (intersection_alike h.nodes)
  · refine (chooseIndex_alike hρ hsame h.group hds).map fun d e hde => ?_
    exact intersection_alike (.cons ⟨e, _, rfl, hde, h.group⟩ h.nodes)

end

mutual

theorem gather_alike (hρ : Renames ρ) (hsame : ∀ d e, same d e → d.Resembles ρ e)
    (hds : List.Forall₂ same ds es) : ∀ {s t : Selector}, s.Alike ρ t →
    Agree (Parts.Alike same ρ) (gather ds sort s) (gather es (sort.map (SortKey.renamed ρ)) t)
  | .and _, _, ⟨_, rfl, h⟩ => gatherAll_alike hρ hsame hds h
  | .or _, _, ⟨_, rfl, h⟩ => by
    rw [gather, gather]
    refine (alternatives_alike hρ hsame hds h).bind fun ns ms hnodes => ?_
    exact .ok ⟨.nil, .cons ⟨ms, rfl, allAlike_iff.mpr hnodes⟩ .nil⟩
  | .field _ _, _, ⟨_, rfl, hc⟩ => .ok ⟨.cons ⟨rfl, hc⟩ .nil, .nil⟩
  | .text _, _, ⟨search, rfl⟩ => by
    have hfind : Option.Rel same (ds.find? (·.kind == .text)) (es.find? (·.kind == .text)) :=
      find?_rel (fun d e hde => by rw [(hsame d e hde).kind_eq]) hds
    rw [gather, gather]
    generalize ds.find? (·.kind == .text) = found at hfind ⊢
    generalize es.find? (·.kind == .text) = found' at hfind ⊢
    cases hfind with
    | none => exact .error _ _
    | some hde => exact .ok ⟨.nil, .cons ⟨_, search, rfl, hde⟩ .nil⟩

theorem gatherAll_alike (hρ : Renames ρ) (hsame : ∀ d e, same d e → d.Resembles ρ e)
    (hds : List.Forall₂ same ds es) : ∀ {ss ts : List Selector}, Selector.AllAlike ρ ss ts →
    Agree (Parts.Alike same ρ) (gatherAll ds sort ss) (gatherAll es (sort.map (SortKey.renamed ρ)) ts)
  | [], _, rfl => .ok ⟨.nil, .nil⟩
  | _ :: _, _, ⟨_, _, rfl, hs, hrest⟩ => by
    rw [gatherAll, gatherAll]
    refine (gather_alike hρ hsame hds hs).bind fun first first' hfirst => ?_
    refine (gatherAll_alike hρ hsame hds hrest).bind fun more more' hmore => ?_
    exact .ok ⟨List.rel_append hfirst.group hmore.group, List.rel_append hfirst.nodes hmore.nodes⟩

theorem alternatives_alike (hρ : Renames ρ) (hsame : ∀ d e, same d e → d.Resembles ρ e)
    (hds : List.Forall₂ same ds es) : ∀ {ss ts : List Selector}, Selector.AllAlike ρ ss ts →
    Agree (List.Forall₂ (PlanNode.Alike same ρ)) (alternatives ds sort ss)
      (alternatives es (sort.map (SortKey.renamed ρ)) ts)
  | [], _, rfl => .ok .nil
  | _ :: _, _, ⟨_, _, rfl, hs, hrest⟩ => by
    rw [alternatives, alternatives]
    refine (gather_alike hρ hsame hds hs).bind fun parts parts' hparts => ?_
    refine (conclude_alike hρ hsame hds hparts).bind fun first first' hfirst => ?_
    exact (alternatives_alike hρ hsame hds hrest).bind fun more more' hmore => .ok (.cons hfirst hmore)

end

section

include hρ hsame

theorem orderIndex_alike {root root' : PlanNode} (h : root.Alike same ρ root') :
    Agree same (orderIndex root sort) (orderIndex root' (sort.map (SortKey.renamed ρ))) := by
  unfold orderIndex
  rw [List.isEmpty_map]
  split
  · have hread : List.Forall₂ same (root.scans ++ root.texts) (root'.scans ++ root'.texts) :=
      List.rel_append h.scans h.texts
    generalize root.scans ++ root.texts = read at hread ⊢
    generalize root'.scans ++ root'.texts = read' at hread ⊢
    cases hread with
    | nil => exact .error _ _
    | cons hde _ => exact .ok hde
  · have hfind : Option.Rel same (root.scans.find? fun d => sort.all fun key => d.covers key.path)
        (root'.scans.find? fun e => (sort.map (SortKey.renamed ρ)).all fun key => e.covers key.path) := by
      refine find?_rel (fun d e hde => ?_) h.scans
      rw [List.all_map]
      exact List.all_congr rfl fun key => ((hsame d e hde).covers hρ key.path).symm
    generalize (root.scans.find? fun d => sort.all fun key => d.covers key.path) = found at hfind ⊢
    generalize root'.scans.find? _ = found' at hfind ⊢
    cases hfind with
    | none => exact .error _ _
    | some hde => exact .ok hde

/-- Selectors that are alike have plans that are alike, or none of them has a plan. -/
theorem make_alike (hds : List.Forall₂ same ds es) {s t : Selector} (h : s.Alike ρ t) (sort : List SortKey) :
    Agree (Plan.Alike same ρ) (Plan.make s ds sort) (Plan.make t es (sort.map (SortKey.renamed ρ))) := by
  unfold Plan.make
  refine (gather_alike hρ hsame hds h).bind fun parts parts' hparts => ?_
  refine (conclude_alike hρ hsame hds hparts).bind fun root root' hroot => ?_
  exact (orderIndex_alike hρ hsame hroot).bind fun d e horder => .ok ⟨hroot, horder, rfl⟩

end

end Planner

end DocIndex
