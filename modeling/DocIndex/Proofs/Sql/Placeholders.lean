import DocIndex.Sql.Fragment
import Mathlib.Data.List.Basic

/-! # Placeholders

A text is closed if all quotes in it are. Closed texts can be put together, and then their placeholders add
up; a quoted identifier is closed and has none, whatever its name is made of. A slot is a placeholder together
with the closed text right before it and the value it is for, so the slots of a text tell in which order values
are bound.
-/

namespace DocIndex

namespace Scan

theorem count_append (q : Option Char) (cs ds : List Char) :
    count q (cs ++ ds) = count q cs + count (state q cs) ds := by
  induction cs generalizing q with
  | nil => simp [count, state]
  | cons c rest ih =>
    cases q with
    | none => simp only [List.cons_append, count, state, ih, Nat.add_assoc]
    | some quote => simp only [List.cons_append, count, state, ih]

theorem state_append (q : Option Char) (cs ds : List Char) : state q (cs ++ ds) = state (state q cs) ds := by
  induction cs generalizing q with
  | nil => simp [state]
  | cons c rest ih => cases q <;> simp only [List.cons_append, state, ih]

theorem doubleQuotes_inside (cs : List Char) :
    state (some '"') (doubleQuotes cs) = some '"' ∧ count (some '"') (doubleQuotes cs) = 0 := by
  induction cs with
  | nil => exact ⟨rfl, rfl⟩
  | cons c rest ih =>
    unfold doubleQuotes
    split
    · exact ⟨ih.1, (Nat.zero_add _).trans ih.2⟩
    · rename_i hc
      simp only [state, count, if_neg hc]
      exact ih

end Scan

/-- All quotes of a text are closed, and it has this many placeholders. -/
def Counts (text : String) (n : Nat) : Prop := Scan.state none text.toList = none ∧ placeholders text = n

instance (text : String) (n : Nat) : Decidable (Counts text n) := inferInstanceAs (Decidable (_ ∧ _))

namespace Counts

variable {s t : String} {m n : Nat} {parts : List String}

theorem append (hs : Counts s m) (ht : Counts t n) : Counts (s ++ t) (m + n) := by
  unfold Counts placeholders
  rw [String.toList_append, Scan.state_append, Scan.count_append, hs.1]
  exact ⟨ht.1, congrArg₂ (· + ·) hs.2 ht.2⟩

theorem after (ht : Counts t n) (s : String) (hs : Counts s 0 := by decide) : Counts (s ++ t) n := by
  have h := hs.append ht
  rwa [Nat.zero_add] at h

theorem before (hs : Counts s m) (t : String) (ht : Counts t 0 := by decide) : Counts (s ++ t) m := hs.append ht

theorem quoteIdentifier (name : String) : Counts (quoteIdentifier name) 0 := by
  have hinside := Scan.doubleQuotes_inside name.toList
  have hquoted : (DocIndex.quoteIdentifier name).toList = ['"'] ++ doubleQuotes name.toList ++ ['"'] := by
    simp [DocIndex.quoteIdentifier]
  have hopen : Scan.state none ['"'] = some '"' := rfl
  unfold Counts placeholders
  rw [hquoted, Scan.state_append, Scan.state_append, Scan.count_append, Scan.count_append, Scan.state_append, hopen,
    hinside.1, hinside.2]
  exact ⟨rfl, rfl⟩

theorem intercalate (hs : Counts s 0) (hparts : ∀ p ∈ parts, Counts p 0) : Counts (s.intercalate parts) 0 := by
  induction parts with
  | nil => exact ⟨rfl, rfl⟩
  | cons p rest ih =>
    have hp := hparts p List.mem_cons_self
    have hrest := ih fun q hq => hparts q (List.mem_cons_of_mem _ hq)
    cases rest with
    | nil =>
      rw [String.intercalate_singleton]
      exact hp
    | cons q more =>
      rw [String.intercalate_cons_cons]
      exact (hp.append hs).append hrest

end Counts

/-! ## Slots -/

/-- A placeholder: the text right before it, and the value that it is for. -/
structure Slot where
  lead : String
  value : SqlValue
  deriving DecidableEq, Repr

namespace Slot

/-- The slots of a list: the first behind the opening, each further one behind a comma. -/
def listed (opening : String) : List SqlValue → List Slot
  | [] => []
  | v :: rest => ⟨opening, v⟩ :: listed ", " rest

theorem map_value_listed (opening : String) (vs : List SqlValue) : (listed opening vs).map (·.value) = vs := by
  induction vs generalizing opening with
  | nil => rfl
  | cons v rest ih => rw [listed, List.map_cons, ih]

end Slot

/-- All quotes of a text are closed, and its placeholders are those of the slots, in order, each behind its lead. -/
inductive Binds : String → List Slot → Prop where
  | plain {text : String} (h : Counts text 0) : Binds text []
  | slot {before lead rest : String} {v : SqlValue} {slots : List Slot} (hbefore : Counts before 0)
      (hlead : Counts lead 0) (hrest : Binds rest slots) : Binds (before ++ lead ++ "?" ++ rest) (⟨lead, v⟩ :: slots)

namespace Binds

variable {s t : String} {slots more : List Slot}

theorem counts (h : Binds s slots) : Counts s slots.length := by
  induction h with
  | plain h => exact h
  | @slot before lead rest v slots hbefore hlead _ ih =>
    have hmark : Counts "?" 1 := by decide
    have htext := ((hbefore.append hlead).append hmark).append ih
    rwa [Nat.zero_add, Nat.add_comm] at htext

theorem after (ht : Binds t slots) (hs : Counts s 0) : Binds (s ++ t) slots := by
  cases ht with
  | plain h => exact .plain (hs.append h)
  | @slot before lead rest v slots hbefore hlead hrest =>
    have hassoc : s ++ (before ++ lead ++ "?" ++ rest) = (s ++ before) ++ lead ++ "?" ++ rest := by
      simp only [String.append_assoc]
    rw [hassoc]
    exact .slot (hs.append hbefore) hlead hrest

theorem append (hs : Binds s slots) (ht : Binds t more) : Binds (s ++ t) (slots ++ more) := by
  induction hs with
  | plain h => exact ht.after h
  | slot hbefore hlead _ ih =>
    rw [String.append_assoc, List.cons_append]
    exact .slot hbefore hlead ih

theorem before (hs : Binds s slots) (ht : Counts t 0) : Binds (s ++ t) slots := by
  have h := hs.append (.plain ht)
  rwa [List.append_nil] at h

theorem single {lead : String} (hlead : Counts lead 0) (v : SqlValue) : Binds (lead ++ "?") [⟨lead, v⟩] := by
  have h : Binds ("" ++ lead ++ "?" ++ "") [⟨lead, v⟩] := .slot (by decide) hlead (.plain (by decide))
  rwa [String.empty_append, String.append_empty] at h

theorem listed {opening : String} (hopening : Counts opening 0) {vs : List SqlValue} (hne : vs ≠ []) :
    Binds (opening ++ ", ".intercalate (vs.map fun _ => "?")) (Slot.listed opening vs) := by
  induction vs generalizing opening with
  | nil => exact absurd rfl hne
  | cons v rest ih =>
    cases rest with
    | nil => exact single hopening v
    | cons w more =>
      have hrest := @ih ", " (by decide) (List.cons_ne_nil w more)
      have hfirst := (single hopening v).append hrest
      have htext : opening ++ ", ".intercalate ((v :: w :: more).map fun _ => "?") =
          opening ++ "?" ++ (", " ++ ", ".intercalate ((w :: more).map fun _ => "?")) := by
        simp only [List.map_cons, String.intercalate_cons_cons, String.append_assoc]
      rw [htext]
      exact hfirst

theorem intercalate {α : Type} {text : α → String} {slots : α → List Slot} {parts : List α} (hs : Counts s 0)
    (hparts : ∀ p ∈ parts, Binds (text p) (slots p)) :
    Binds (s.intercalate (parts.map text)) (parts.flatMap slots) := by
  induction parts with
  | nil => exact .plain ⟨rfl, rfl⟩
  | cons p rest ih =>
    have hp := hparts p List.mem_cons_self
    have hrest := ih fun q hq => hparts q (List.mem_cons_of_mem _ hq)
    cases rest with
    | nil =>
      rw [List.map_cons, List.map_nil, String.intercalate_singleton, List.flatMap_singleton]
      exact hp
    | cons q more =>
      rw [List.map_cons, List.map_cons, String.intercalate_cons_cons, List.flatMap_cons]
      exact (hp.before hs).append hrest

end Binds

/-! ## Fragments -/

namespace Fragment

/-- A text with the values of its slots. -/
def ofSlots (text : String) (slots : List Slot) : Fragment := ⟨text, slots.map (·.value)⟩

theorem ofSlots_append (s t : String) (a b : List Slot) :
    ofSlots s a ++ ofSlots t b = ofSlots (s ++ t) (a ++ b) :=
  congrArg (Fragment.mk (s ++ t)) List.map_append.symm

theorem make_eq {text : String} {slots : List Slot} (h : Binds text slots) :
    make text (slots.map (·.value)) = .ok (ofSlots text slots) := by
  have hlength : placeholders text = (slots.map (·.value)).length := by rw [List.length_map, h.counts.2]
  exact if_pos hlength

theorem raw_eq {text : String} (h : Counts text 0) : raw text = .ok (ofSlots text []) := make_eq (.plain h)

theorem join_eq {α : Type} {separator : String} (h : Counts separator 0) (text : α → String) (slots : α → List Slot)
    (parts : List α) : join (parts.map fun p => ofSlots (text p) (slots p)) separator =
      .ok (ofSlots (separator.intercalate (parts.map text)) (parts.flatMap slots)) := by
  unfold join
  rw [raw_eq h]
  refine congrArg Except.ok ?_
  induction parts with
  | nil => rfl
  | cons p rest ih =>
    cases rest with
    | nil =>
      rw [List.map_cons, List.map_nil, List.map_cons, List.map_nil, String.intercalate_singleton,
        List.flatMap_singleton]
      rfl
    | cons q more =>
      simp only [List.map_cons, intersperse, String.intercalate_cons_cons, List.flatMap_cons] at ih ⊢
      rw [ih, ofSlots_append, ofSlots_append, List.append_nil]

theorem wrap_eq {before after : String} (hb : Counts before 0) (ha : Counts after 0) (text : String)
    (slots : List Slot) : (ofSlots text slots).wrap before after = .ok (ofSlots (before ++ text ++ after) slots) := by
  unfold wrap
  rw [raw_eq hb, raw_eq ha]
  simp only [bind, Except.bind, ofSlots_append, List.nil_append, List.append_nil]

end Fragment

end DocIndex
