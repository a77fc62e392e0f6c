import DocIndex.Proofs.Basic
import DocIndex.Query.Selector

/-! # Selectors that requests can ask for

A request compares fields with strings, numbers and booleans only, and a negation is folded away or stands
before a comparison or a list. So a selector that was read never has a condition that no row can be asked for.
-/

namespace DocIndex

namespace Condition

/-- A comparison, or a list to choose from, whose values can be compared. -/
inductive Comparing : Condition → Prop where
  | compare (op : Operator) (v : Json) (h : v.isComparable = true) : Comparing (.compare op v)
  | oneOf (vs : List Json) (h : ∀ v ∈ vs, v.isComparable = true) : Comparing (.oneOf vs)

/-- A condition that a request can ask for. -/
inductive Requested : Condition → Prop where
  | comparing {c : Condition} (h : c.Comparing) : Requested c
  | present (expected : Bool) : Requested (.present expected)
  | not {c : Condition} (h : c.Comparing) : Requested (.not c)

variable {path key : String} {v : Json} {c : Condition}

theorem Requested.negate (h : c.Requested) : c.negate.Requested := by
  cases h with
  | comparing h =>
    cases h with
    | compare op v h => exact .not (.compare op v h)
    | oneOf vs h => exact .not (.oneOf vs h)
  | present expected => exact .present _
  | not h => exact .comparing h

theorem Requested.positive (h : c.Requested) (hsign : c.isNegative = false) : c.Comparing ∨ c = .present true := by
  cases h with
  | comparing h => exact Or.inl h
  | present expected => cases expected <;> simp_all [isNegative]
  | not h => simp [isNegative] at hsign

theorem Requested.negative (h : c.Requested) (hsign : c.isNegative = true) :
    c = .present false ∨ ∃ inner : Condition, inner.Comparing ∧ c = .not inner := by
  cases h with
  | comparing h => cases h <;> simp [isNegative] at hsign
  | present expected => cases expected <;> simp_all [isNegative]
  | @not inner h => exact Or.inr ⟨inner, h, rfl⟩

theorem Requested.of_not (h : (Condition.not c).Requested) : c.Comparing := by
  cases h with
  | comparing h => cases h
  | not h => exact h

theorem operand?_ok {w : Json} (h : operand? path v = .ok w) : w.isComparable = true := by
  unfold operand? at h
  split at h
  · rename_i hv
    rw [← Except.ok.inj h]
    exact hv
  · cases v <;> simp at h

theorem operands?_ok {vs ws : List Json} (h : operands? path vs = .ok ws) : ∀ w ∈ ws, w.isComparable = true := by
  induction vs generalizing ws with
  | nil =>
    rw [operands?] at h
    rw [← Except.ok.inj h]
    simp
  | cons v rest ih =>
    rw [operands?] at h
    obtain ⟨first, hfirst, h⟩ := ok_of_bind h
    obtain ⟨more, hmore, h⟩ := ok_of_bind h
    rw [← Except.ok.inj h]
    intro w hw
    rcases List.mem_cons.mp hw with rfl | hw
    · exact operand?_ok hfirst
    · exact ih hmore w hw

theorem comparison?_ok {op : Operator} (h : comparison? path op v = .ok c) : c.Comparing := by
  obtain ⟨w, hv, rfl⟩ := ok_of_map h
  exact .compare op w (operand?_ok hv)

theorem membership?_ok (h : membership? path key v = .ok c) : c.Comparing := by
  unfold membership? at h
  split at h
  · rename_i items
    obtain ⟨vs, hvs, rfl⟩ := ok_of_map h
    exact .oneOf vs (operands?_ok hvs)
  · simp at h

theorem negate_ok {read : Except QueryFault Condition} (hread : ∀ c, read = .ok c → c.Requested)
    (h : read.map Condition.negate = .ok c) : c.Requested := by
  obtain ⟨inner, hr, rfl⟩ := ok_of_map h
  exact (hread inner hr).negate

theorem ofJson?_requested (path : String) : ∀ (key : String) (v : Json) {c : Condition},
    ofJson? path key v = .ok c → c.Requested
  | key, v, c, h => by
    have hcompare : ∀ op c, comparison? path op v = .ok c → c.Requested :=
      fun _ _ h => .comparing (comparison?_ok h)
    have hmember : ∀ c, membership? path key v = .ok c → c.Requested := fun _ h => .comparing (membership?_ok h)
    rw [ofJson?.eq_def] at h
    by_cases heq : key = "$eq"
    · rw [if_pos heq] at h
      exact hcompare _ _ h
    rw [if_neg heq] at h
    by_cases hlt : key = "$lt"
    · rw [if_pos hlt] at h
      exact hcompare _ _ h
    rw [if_neg hlt] at h
    by_cases hlte : key = "$lte"
    · rw [if_pos hlte] at h
      exact hcompare _ _ h
    rw [if_neg hlte] at h
    by_cases hgt : key = "$gt"
    · rw [if_pos hgt] at h
      exact hcompare _ _ h
    rw [if_neg hgt] at h
    by_cases hgte : key = "$gte"
    · rw [if_pos hgte] at h
      exact hcompare _ _ h
    rw [if_neg hgte] at h
    by_cases hne : key = "$ne"
    · rw [if_pos hne] at h
      exact negate_ok (hcompare .eq) h
    rw [if_neg hne] at h
    by_cases hin : key = "$in"
    · rw [if_pos hin] at h
      exact hmember _ h
    rw [if_neg hin] at h
    by_cases hnin : key = "$nin"
    · rw [if_pos hnin] at h
      exact negate_ok hmember h
    rw [if_neg hnin] at h
    by_cases hexists : key = "$exists"
    · rw [if_pos hexists] at h
      split at h
      · rw [← Except.ok.inj h]
        exact .present _
      · simp at h
    rw [if_neg hexists] at h
    by_cases hnot : key = "$not"
    · rw [if_pos hnot] at h
      split at h
      · rename_i inner w
        split at h
        · exact negate_ok (fun _ h => ofJson?_requested path inner w h) h
        · simp at h
      · simp at h
      · simp at h
    · rw [if_neg hnot] at h
      simp at h

end Condition

namespace Selector

mutual

/-- All conditions of the selector are ones that a request can ask for. -/
def Requested : Selector → Prop
  | .and parts => AllRequested parts
  | .or parts => AllRequested parts
  | .field _ condition => condition.Requested
  | .text _ => True

def AllRequested : List Selector → Prop
  | [] => True
  | s :: rest => s.Requested ∧ AllRequested rest

end

/-- The form in which selectors are read: alternatives have parts, among which there is no search, and conditions are
ones that a request can ask for. The flag tells whether the selector is part of an alternative. -/
inductive IsNormal : Bool → Selector → Prop where
  | and {underOr : Bool} {parts : List Selector} (h : ∀ s ∈ parts, IsNormal underOr s) : IsNormal underOr (.and parts)
  | or {underOr : Bool} {parts : List Selector} (hne : parts ≠ []) (h : ∀ s ∈ parts, IsNormal true s) :
      IsNormal underOr (.or parts)
  | field {underOr : Bool} (path : String) {condition : Condition} (h : condition.Requested) :
      IsNormal underOr (.field path condition)
  | text (search : String) : IsNormal false (.text search)

variable {s : Selector} {ss : List Selector} {underOr : Bool}

theorem allRequested_iff : AllRequested ss ↔ ∀ s ∈ ss, s.Requested := by
  induction ss with
  | nil => simp [AllRequested]
  | cons s rest ih => rw [AllRequested, ih, List.forall_mem_cons]

theorem IsNormal.requested (h : s.IsNormal underOr) : s.Requested := by
  induction h with
  | and _ ih => exact allRequested_iff.mpr ih
  | or _ _ ih => exact allRequested_iff.mpr ih
  | field _ h => exact h
  | text _ => trivial

theorem conjunction_normal (h : ∀ s ∈ ss, s.IsNormal underOr) : (conjunction ss).IsNormal underOr := by
  unfold conjunction
  split
  · exact h _ List.mem_cons_self
  · exact .and h

theorem conditions?_requested {path : String} {members : List (String × Json)} {cs : List Condition}
    (h : conditions? path members = .ok cs) : ∀ c ∈ cs, c.Requested := by
  induction members generalizing cs with
  | nil =>
    rw [conditions?] at h
    rw [← Except.ok.inj h]
    simp
  | cons m rest ih =>
    rw [conditions?] at h
    obtain ⟨first, hfirst, h⟩ := ok_of_bind h
    obtain ⟨more, hmore, h⟩ := ok_of_bind h
    rw [← Except.ok.inj h]
    exact List.forall_mem_cons.mpr ⟨Condition.ofJson?_requested path m.1 m.2 hfirst, ih hmore⟩

theorem field?_normal {path : String} {v : Json} (h : field? path v = .ok s) : s.IsNormal underOr := by
  unfold field? at h
  split at h
  · rename_i members
    split at h
    · simp at h
    · obtain ⟨cs, hcs, h⟩ := ok_of_bind h
      rw [← Except.ok.inj h]
      refine conjunction_normal (List.forall_mem_map.mpr fun c hc => ?_)
      exact .field path (conditions?_requested hcs c hc)
  · obtain ⟨c, hc, rfl⟩ := ok_of_map h
    exact .field path (.comparing (Condition.comparison?_ok hc))

theorem search?_normal {v : Json} (h : search? v = .ok s) : s.IsNormal false := by
  unfold search? at h
  split at h
  · rw [← Except.ok.inj h]
    exact .text _
  · simp at h

theorem items?_length {items : List Json} (h : items? underOr items = .ok ss) : ss.length = items.length := by
  induction items generalizing ss with
  | nil =>
    rw [items?] at h
    rw [← Except.ok.inj h]
    rfl
  | cons v rest ih =>
    rw [items?] at h
    obtain ⟨first, _, h⟩ := ok_of_bind h
    obtain ⟨more, hmore, h⟩ := ok_of_bind h
    rw [← Except.ok.inj h, List.length_cons, List.length_cons, ih hmore]

theorem clause?_normal_of {key : String} {v : Json}
    (hitems : ∀ underOr items ss, v = .array items → items? underOr items = .ok ss → ∀ s ∈ ss, s.IsNormal underOr)
    (h : clause? underOr key v = .ok s) : s.IsNormal underOr := by
  unfold clause? at h
  split at h
  · split at h
    · rename_i items
      obtain ⟨ss, hss, h⟩ := ok_of_bind h
      rw [← Except.ok.inj h]
      exact .and (hitems underOr items ss rfl hss)
    · simp at h
  split at h
  · split at h
    · rename_i items
      obtain ⟨ss, hss, h⟩ := ok_of_bind h
      split at h
      · simp at h
      · rename_i hne
        rw [← Except.ok.inj h]
        exact .or (fun hnil => hne (List.isEmpty_iff.mpr hnil)) (hitems true items ss rfl hss)
    · simp at h
  split at h
  · split at h
    · simp at h
    · rename_i hunder
      rw [Bool.not_eq_true] at hunder
      subst hunder
      exact search?_normal h
  split at h
  · simp at h
  · obtain ⟨_, _, h⟩ := ok_of_bind h
    exact field?_normal h

mutual

theorem read?_normal : ∀ (v : Json) (underOr : Bool) {s : Selector}, read? underOr v = .ok s → s.IsNormal underOr
  | .object members, underOr, s, h => by
    rw [read?] at h
    obtain ⟨cs, hcs, h⟩ := ok_of_bind h
    rw [← Except.ok.inj h]
    exact conjunction_normal (clauses?_normal members underOr hcs)
  | .null, _, _, h | .bool _, _, _, h | .number _, _, _, h | .string _, _, _, h | .array _, _, _, h => by
    simp [read?] at h

theorem clauses?_normal : ∀ (members : List (String × Json)) (underOr : Bool) {ss : List Selector},
    clauses? underOr members = .ok ss → ∀ s ∈ ss, s.IsNormal underOr
  | [], underOr, ss, h => by
    rw [clauses?] at h
    rw [← Except.ok.inj h]
    simp
  | (key, v) :: rest, underOr, ss, h => by
    rw [clauses?] at h
    obtain ⟨first, hfirst, h⟩ := ok_of_bind h
    obtain ⟨more, hmore, h⟩ := ok_of_bind h
    rw [← Except.ok.inj h]
    exact List.forall_mem_cons.mpr ⟨clause?_normal v underOr key hfirst, clauses?_normal rest underOr hmore⟩

theorem clause?_normal : ∀ (v : Json) (underOr : Bool) (key : String) {s : Selector},
    clause? underOr key v = .ok s → s.IsNormal underOr
  | .array items, _, _, _, h => clause?_normal_of
      (fun u _ ss heq hss => items?_normal items u (by rw [Json.array.inj heq]; exact hss)) h
  | .null, _, _, _, h | .bool _, _, _, _, h | .number _, _, _, _, h | .string _, _, _, _, h | .object _, _, _, _, h =>
    clause?_normal_of (fun _ _ _ heq => Json.noConfusion heq) h

theorem items?_normal : ∀ (items : List Json) (underOr : Bool) {ss : List Selector},
    items? underOr items = .ok ss → ∀ s ∈ ss, s.IsNormal underOr
  | [], underOr, ss, h => by
    rw [items?] at h
    rw [← Except.ok.inj h]
    simp
  | v :: rest, underOr, ss, h => by
    rw [items?] at h
    obtain ⟨first, hfirst, h⟩ := ok_of_bind h
    obtain ⟨more, hmore, h⟩ := ok_of_bind h
    rw [← Except.ok.inj h]
    exact List.forall_mem_cons.mpr ⟨read?_normal v underOr hfirst, items?_normal rest underOr hmore⟩

end

theorem ofJson?_normal {v : Json} (h : ofJson? v = .ok s) : s.IsNormal false := read?_normal v false (ok_of_mapError h)

/-- A selector that was read has only conditions that a request can ask for. -/
theorem ofJson?_requested {v : Json} (h : ofJson? v = .ok s) : s.Requested := (ofJson?_normal h).requested

end Selector

end DocIndex
