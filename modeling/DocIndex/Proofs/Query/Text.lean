import DocIndex.Proofs.Sql.Placeholders
import DocIndex.Query.Statement

/-! # Texts of statements

What a statement is written down as: a text with closed quotes, and the slots of its placeholders. No statement
is refused for having another number of placeholders than it has values.
-/

namespace DocIndex

/-! ## Conditions on rows -/

namespace Predicate

def text : Predicate → String
  | .never => "0"
  | .compare column op _ => quoteIdentifier column ++ " " ++ op.text ++ " ?"
  | .oneOf column vs => quoteIdentifier column ++ " IN (" ++ placeholderList vs.length ++ ")"
  | .present column => quoteIdentifier column ++ " IS NOT NULL"

def slots : Predicate → List Slot
  | .never => []
  | .compare column op v => [⟨quoteIdentifier column ++ " " ++ op.text ++ " ", v⟩]
  | .oneOf column vs => Slot.listed (quoteIdentifier column ++ " IN (") vs
  | .present _ => []

theorem placeholderList_eq (vs : List SqlValue) :
    placeholderList vs.length = ", ".intercalate (vs.map fun _ => "?") := by
  rw [placeholderList, List.map_const']

theorem binds (p : Predicate) : Binds p.text p.slots := by
  cases p with
  | never => exact .plain (by decide)
  | compare column op v =>
    have hop : Counts op.text 0 := by cases op <;> decide
    have hlead := (((Counts.quoteIdentifier column).before " ").append hop).before " "
    have hmark : " ?" = " " ++ "?" := by decide
    rw [text, slots, hmark, ← String.append_assoc]
    exact Binds.single hlead v
  | oneOf column vs =>
    have hopening := (Counts.quoteIdentifier column).before " IN ("
    rw [text, slots, placeholderList_eq]
    by_cases hnone : vs = []
    · subst hnone
      exact .plain ((hopening.before "").before ")")
    · exact (Binds.listed hopening hnone).before (by decide)
  | present column =>
    rw [text, slots]
    exact .plain ((Counts.quoteIdentifier column).before " IS NOT NULL")

theorem fragment_eq (p : Predicate) : p.fragment = .ok (.ofSlots p.text p.slots) := by
  have hmake := Fragment.make_eq p.binds
  cases p with
  | never => exact hmake
  | compare column op v => exact hmake
  | oneOf column vs =>
    rw [slots, Slot.map_value_listed] at hmake
    exact hmake
  | present column => exact hmake

theorem fragments_eq (ps : List Predicate) : fragments ps = .ok (ps.map fun p => .ofSlots p.text p.slots) := by
  induction ps with
  | nil => rfl
  | cons p rest ih => simp only [fragments, fragment_eq, ih, bind, Except.bind, List.map_cons]

end Predicate

/-! ## Sets of documents -/

namespace IdSet

def compoundText (operator : String) : List String → String
  | [t] => t
  | ts => (" " ++ operator ++ " ").intercalate (ts.map fun t => opening ++ t ++ ")")

def whereText : List Predicate → String
  | [] => ""
  | conditions => " WHERE " ++ " AND ".intercalate (conditions.map Predicate.text)

mutual

def text : IdSet → String
  | .rows table conditions => select table ++ whereText conditions
  | .matching table _ => select table ++ " WHERE " ++ quoteIdentifier table ++ " MATCH ?"
  | .without left right => left.text ++ " EXCEPT " ++ right.text
  | .intersect parts => compoundText "INTERSECT" (texts parts)
  | .union parts => compoundText "UNION" (texts parts)

def texts : List IdSet → List String
  | [] => []
  | s :: rest => s.text :: texts rest

end

mutual

def slots : IdSet → List Slot
  | .rows _ conditions => conditions.flatMap Predicate.slots
  | .matching table search => [⟨quoteIdentifier table ++ " MATCH ", .text search⟩]
  | .without left right => left.slots ++ right.slots
  | .intersect parts => slotsOf parts
  | .union parts => slotsOf parts

def slotsOf : List IdSet → List Slot
  | [] => []
  | s :: rest => s.slots ++ slotsOf rest

end

theorem texts_eq (parts : List IdSet) : texts parts = parts.map text := by
  induction parts with
  | nil => rfl
  | cons s rest ih => rw [texts, ih, List.map_cons]

theorem slotsOf_eq (parts : List IdSet) : slotsOf parts = parts.flatMap slots := by
  induction parts with
  | nil => rfl
  | cons s rest ih => rw [slotsOf, ih, List.flatMap_cons]

theorem counts_select (table : String) : Counts (select table) 0 :=
  (((Counts.quoteIdentifier idColumn).after "SELECT ").before " FROM ").append (Counts.quoteIdentifier table)

theorem counts_opening : Counts opening 0 := ((Counts.quoteIdentifier idColumn).after "SELECT ").before " FROM ("

section

variable {α : Type} {operator : String} (text : α → String) (slots : α → List Slot)

theorem binds_compoundText (h : Counts operator 0) {parts : List α}
    (hparts : ∀ p ∈ parts, Binds (text p) (slots p)) :
    Binds (compoundText operator (parts.map text)) (parts.flatMap slots) := by
  have hseparator : Counts (" " ++ operator ++ " ") 0 := (h.after " ").before " "
  unfold compoundText
  split
  · rename_i t heq
    obtain ⟨p, rfl, rfl⟩ := List.map_eq_singleton_iff.mp heq
    rw [List.flatMap_singleton]
    exact hparts p List.mem_cons_self
  · rw [List.map_map]
    exact Binds.intercalate hseparator fun p hp => ((hparts p hp).after counts_opening).before (by decide)

theorem compound_eq (h : Counts operator 0) (parts : List α) :
    compound operator (parts.map fun p => .ofSlots (text p) (slots p)) =
      .ok (.ofSlots (compoundText operator (parts.map text)) (parts.flatMap slots)) := by
  have hseparator : Counts (" " ++ operator ++ " ") 0 := (h.after " ").before " "
  have hwrap : ∀ parts : List α, ((parts.map fun p => Fragment.ofSlots (text p) (slots p)).mapM
      fun f => f.wrap opening ")") = .ok (parts.map fun p => .ofSlots (opening ++ text p ++ ")") (slots p)) := by
    intro parts
    induction parts with
    | nil => rfl
    | cons p rest ih =>
      have hfirst := Fragment.wrap_eq counts_opening (by decide : Counts ")" 0) (text p) (slots p)
      simp only [List.map_cons, List.mapM_cons, hfirst, ih, bind, Except.bind, pure, Except.pure]
  rcases parts with _ | ⟨p, _ | ⟨q, rest⟩⟩
  · exact Fragment.join_eq hseparator (fun p => opening ++ text p ++ ")") slots []
  · simp only [List.map_cons, List.map_nil, compound, compoundText, List.flatMap_singleton]
  · have hjoin := Fragment.join_eq hseparator (fun p => opening ++ text p ++ ")") slots (p :: q :: rest)
    have hparts := hwrap (p :: q :: rest)
    simp only [List.map_cons] at hjoin hparts
    simp only [List.map_cons, compound, compoundText, hparts, hjoin, List.map_map, Function.comp_def, bind,
      Except.bind]

end

mutual

theorem binds : ∀ s : IdSet, Binds s.text s.slots
  | .rows table conditions => by
    refine Binds.after ?_ (counts_select table)
    rcases conditions with _ | ⟨p, rest⟩
    · exact .plain (by decide)
    · have hconditions : ∀ q ∈ p :: rest, Binds q.text q.slots := fun q _ => q.binds
      exact (Binds.intercalate (by decide : Counts " AND " 0) hconditions).after (by decide)
  | .matching table search => by
    have hopening := (counts_select table).before " WHERE "
    have hlead := (Counts.quoteIdentifier table).before " MATCH "
    have htext : text (.matching table search) =
        select table ++ " WHERE " ++ (quoteIdentifier table ++ " MATCH " ++ "?") := by
      simp only [text, String.append_assoc, String.reduceAppend]
    rw [htext]
    exact (Binds.single hlead (.text search)).after hopening
  | .without left right => ((binds left).before (by decide)).append (binds right)
  | .intersect parts => by
    rw [text, slots, texts_eq, slotsOf_eq]
    exact binds_compoundText text slots (by decide) (bindsOf parts)
  | .union parts => by
    rw [text, slots, texts_eq, slotsOf_eq]
    exact binds_compoundText text slots (by decide) (bindsOf parts)

theorem bindsOf : ∀ parts : List IdSet, ∀ s ∈ parts, Binds s.text s.slots
  | [], _, hs => absurd hs List.not_mem_nil
  | s :: rest, t, ht => (List.mem_cons.mp ht).elim (fun h => h ▸ binds s) (bindsOf rest t)

end

mutual

theorem fragment_eq : ∀ s : IdSet, s.fragment = .ok (.ofSlots s.text s.slots)
  | .rows table conditions => by
    have hbase := Fragment.raw_eq (counts_select table)
    rcases conditions with _ | ⟨p, rest⟩
    · simp only [fragment, hbase, List.isEmpty_nil, if_true, bind, Except.bind, text, whereText, String.append_empty,
        slots, List.flatMap_nil]
    · have hjoin := Fragment.join_eq (by decide : Counts " AND " 0) Predicate.text Predicate.slots (p :: rest)
      have hwrap := Fragment.wrap_eq (by decide : Counts " WHERE " 0) (by decide : Counts "" 0)
        (" AND ".intercalate ((p :: rest).map Predicate.text)) ((p :: rest).flatMap Predicate.slots)
      simp only [fragment, hbase, Predicate.fragments_eq, hjoin, hwrap, List.isEmpty_cons, Bool.false_eq_true, if_false,
        bind, Except.bind, Fragment.ofSlots_append, String.append_empty, List.nil_append, text, whereText, slots]
  | .matching table search => by
    have hmake := Fragment.make_eq (binds (.matching table search))
    rw [text, slots] at hmake
    rw [fragment, text, slots]
    exact hmake
  | .without left right => by
    have hoperator := Fragment.raw_eq (by decide : Counts " EXCEPT " 0)
    simp only [fragment, fragment_eq left, fragment_eq right, hoperator, bind, Except.bind, Fragment.ofSlots_append,
      List.append_nil, text, slots]
  | .intersect parts => by
    have hcompound := compound_eq text slots (by decide : Counts "INTERSECT" 0) parts
    simp only [fragment, fragments_eq parts, hcompound, bind, Except.bind, text, slots, texts_eq, slotsOf_eq]
  | .union parts => by
    have hcompound := compound_eq text slots (by decide : Counts "UNION" 0) parts
    simp only [fragment, fragments_eq parts, hcompound, bind, Except.bind, text, slots, texts_eq, slotsOf_eq]

theorem fragments_eq : ∀ parts : List IdSet, fragments parts = .ok (parts.map fun s => .ofSlots s.text s.slots)
  | [] => rfl
  | s :: rest => by simp only [fragments, fragment_eq s, fragments_eq rest, bind, Except.bind, List.map_cons]

end

end IdSet

/-! ## Whole statements -/

namespace Statement

def headText (source : String) : String :=
  "SELECT " ++ quoteIdentifier idColumn ++ ", " ++ quoteIdentifier revColumn ++ " FROM " ++ source ++
    " WHERE " ++ quoteIdentifier idColumn ++ " IN ("

def groupText (order : String) : String := ") GROUP BY " ++ quoteIdentifier idColumn ++ " ORDER BY " ++ order

def text (s : Statement) : String :=
  headText (sourceText s.branches) ++ s.ids.text ++ (groupText s.orderText ++ " LIMIT ? OFFSET ?")

def pageSlots (s : Statement) : List Slot := [⟨" LIMIT ", .int s.limit⟩, ⟨" OFFSET ", .int s.skip⟩]

def slots (s : Statement) : List Slot := s.ids.slots ++ s.pageSlots

theorem counts_columnText (column? : Option String) : Counts (columnText column?) 0 := by
  cases column? with
  | none => decide
  | some column => exact Counts.quoteIdentifier column

theorem counts_aliased (position : Nat) (columns : List (Option String)) :
    ∀ t ∈ aliased position columns, Counts t 0 := by
  induction columns generalizing position with
  | nil => simp [aliased]
  | cons c rest ih =>
    intro t ht
    rcases List.mem_cons.mp ht with rfl | ht
    · exact ((counts_columnText c).before " AS ").append (Counts.quoteIdentifier _)
    · exact ih (position + 1) t ht

theorem counts_branchText (b : Branch) : Counts (branchText b) 0 := by
  have hcolumns : Counts (", ".intercalate
      (quoteIdentifier idColumn :: quoteIdentifier revColumn :: aliased 0 b.sortColumns)) 0 := by
    refine Counts.intercalate (by decide) ?_
    intro t ht
    rcases List.mem_cons.mp ht with rfl | ht
    · exact Counts.quoteIdentifier _
    · rcases List.mem_cons.mp ht with rfl | ht
      · exact Counts.quoteIdentifier _
      · exact counts_aliased 0 b.sortColumns t ht
  exact ((hcolumns.after "SELECT ").before " FROM ").append (Counts.quoteIdentifier b.table)

theorem counts_sourceText (branches : List Branch) : Counts (sourceText branches) 0 := by
  unfold sourceText
  split
  · exact Counts.quoteIdentifier _
  · have hunion : Counts (" UNION ALL ".intercalate (branches.map branchText)) 0 := by
      refine Counts.intercalate (by decide) ?_
      intro t ht
      obtain ⟨b, _, rfl⟩ := List.mem_map.mp ht
      exact counts_branchText b
    exact (hunion.after "(").before ")"

theorem counts_sortNames (s : Statement) : ∀ t ∈ s.sortNames, Counts t 0 := by
  intro t ht
  unfold sortNames at ht
  split at ht
  · obtain ⟨c, _, rfl⟩ := List.mem_map.mp ht
    exact counts_columnText c
  · obtain ⟨i, _, rfl⟩ := List.mem_map.mp ht
    exact Counts.quoteIdentifier _

theorem counts_orderText (s : Statement) : Counts s.orderText 0 := by
  refine Counts.intercalate (by decide) ?_
  intro t ht
  rcases List.mem_append.mp ht with ht | ht
  · obtain ⟨⟨name, d⟩, hmem, rfl⟩ := List.mem_map.mp ht
    have hname := counts_sortNames s name (List.of_mem_zip hmem).1
    cases d with
    | ascending => exact (hname.after "MIN(").before ") ASC"
    | descending => exact (hname.after "MAX(").before ") DESC"
  · split at ht
    · rw [List.mem_singleton.mp ht]
      exact (Counts.quoteIdentifier idColumn).before " ASC"
    · simp at ht

theorem counts_headText (branches : List Branch) : Counts (headText (sourceText branches)) 0 := by
  have hid := Counts.quoteIdentifier idColumn
  have hcolumns := ((hid.after "SELECT ").before ", ").append (Counts.quoteIdentifier revColumn)
  exact ((((hcolumns.before " FROM ").append (counts_sourceText branches)).before " WHERE ").append hid).before
    " IN ("

theorem binds_page (s : Statement) : Binds (groupText s.orderText ++ " LIMIT ? OFFSET ?") s.pageSlots := by
  have horder : Counts (groupText s.orderText) 0 :=
    (((Counts.quoteIdentifier idColumn).after ") GROUP BY ").before " ORDER BY ").append (counts_orderText s)
  have hlimit := Binds.single (by decide : Counts " LIMIT " 0) (.int s.limit)
  have hskip := Binds.single (by decide : Counts " OFFSET " 0) (.int s.skip)
  exact (hlimit.append hskip).after horder

theorem binds (s : Statement) : Binds s.text s.slots :=
  (s.ids.binds.after (counts_headText s.branches)).append (binds_page s)

theorem fragment_eq (s : Statement) : s.fragment = .ok (.ofSlots s.text s.slots) := by
  have hhead : Fragment.raw ("SELECT " ++ quoteIdentifier idColumn ++ ", " ++ quoteIdentifier revColumn ++ " FROM " ++
      sourceText s.branches ++ " WHERE " ++ quoteIdentifier idColumn ++ " IN (") =
      .ok (.ofSlots (headText (sourceText s.branches)) []) := Fragment.raw_eq (counts_headText s.branches)
  have htail : Fragment.make (") GROUP BY " ++ quoteIdentifier idColumn ++ " ORDER BY " ++ s.orderText ++
      " LIMIT ? OFFSET ?") [.int s.limit, .int s.skip] =
      .ok (.ofSlots (groupText s.orderText ++ " LIMIT ? OFFSET ?") s.pageSlots) := Fragment.make_eq (binds_page s)
  unfold fragment
  simp only [hhead, s.ids.fragment_eq, htail, bind, Except.bind, Fragment.ofSlots_append, List.nil_append]
  rfl

end Statement

end DocIndex
