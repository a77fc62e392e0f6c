import DocIndex.Proofs.Sql.Order
import DocIndex.Query.Answer
import Mathlib.Data.List.Forall2
import Mathlib.Data.List.GetD

/-! # Sorted results

Of the rows of a document each sort key takes the extreme value in its direction, where nulls do not count. The
results are sorted by these values in turn and then by document id.
-/

namespace DocIndex

/-- The smaller value goes first ascending, the greater one descending. -/
def SortDirection.Before : SortDirection → SqlValue → SqlValue → Prop
  | .ascending, v, w => v.order w = .lt
  | .descending, v, w => w.order v = .lt

/-- The value of a sort key among cells: that which goes first, nulls left out, or null if there is no other. -/
def SortDirection.IsKey (d : SortDirection) (cells : SqlValue → Prop) (v : SqlValue) : Prop :=
  (v = .null ∧ ∀ w, cells w → w = .null) ∨
  (v ≠ .null ∧ cells v ∧ ∀ w, cells w → w ≠ .null → ¬ d.Before w v)

/-- Sort values go before others: in the first place where they differ. -/
inductive KeysBefore : List SortDirection → List SqlValue → List SqlValue → Prop where
  | here {d : SortDirection} {ds : List SortDirection} {v w : SqlValue} {vs ws : List SqlValue} (h : d.Before v w) :
      KeysBefore (d :: ds) (v :: vs) (w :: ws)
  | tie {d : SortDirection} {ds : List SortDirection} {v w : SqlValue} {vs ws : List SqlValue} (h : v.order w = .eq)
      (hrest : KeysBefore ds vs ws) : KeysBefore (d :: ds) (v :: vs) (w :: ws)

theorem SortDirection.IsKey.congr {d : SortDirection} {cells cells' : SqlValue → Prop} {v : SqlValue}
    (h : d.IsKey cells v) (hcells : ∀ w, w ≠ .null → (cells w ↔ cells' w)) : d.IsKey cells' v := by
  rcases h with ⟨hnull, hall⟩ | ⟨hv, hmem, hfirst⟩
  · refine Or.inl ⟨hnull, fun w hw => ?_⟩
    by_contra hw'
    exact hw' (hall w ((hcells w hw').mpr hw))
  · refine Or.inr ⟨hv, (hcells v hv).mp hmem, fun w hw hw' => ?_⟩
    exact hfirst w ((hcells w hw').mpr hw) hw'

namespace Statement

variable {d : SortDirection} {v w : SqlValue}

theorem orderBy_eq_lt : orderBy d v w = .lt ↔ d.Before v w := by cases d <;> rfl

theorem orderBy_eq_eq : orderBy d v w = .eq ↔ v.order w = .eq := by
  cases d with
  | ascending => rfl
  | descending =>
    have hcomm : w.order v = .eq ↔ v.order w = .eq := Std.OrientedCmp.eq_comm
    exact hcomm

instance (d : SortDirection) : Std.TransCmp (orderBy d) := by
  cases d with
  | ascending => exact inferInstanceAs (Std.TransCmp SqlValue.order)
  | descending => exact inferInstanceAs (Std.TransCmp fun v w => SqlValue.order w v)

theorem isLE_of_not_before (h : ¬ d.Before w v) : (orderBy d v w).isLE = true := by
  rw [← orderBy_eq_lt] at h
  have hswap : orderBy d v w = (orderBy d w v).swap := Std.OrientedCmp.eq_swap
  cases hwv : orderBy d w v <;> simp_all

theorem not_before_of_isLE (h : (orderBy d v w).isLE = true) : ¬ d.Before w v := by
  rw [← orderBy_eq_lt]
  intro hlt
  have hswap : orderBy d v w = (orderBy d w v).swap := Std.OrientedCmp.eq_swap
  rw [hswap, hlt] at h
  cases h

theorem betters_iff : betters d v w = true ↔ d.Before v w := by
  cases d with
  | ascending => exact beq_iff_eq
  | descending =>
    rw [betters, beq_iff_eq]
    exact Std.OrientedCmp.gt_iff_lt

/-! ## Extreme values -/

def keyAt (position : Nat) (q : SourceRow) : SqlValue := q.keys.getD position .null

/-- Of two rows the one that is kept has a value if one of them has, and no other value goes before it. -/
theorem extreme_cons (d : SortDirection) (position : Nat) (best r : SourceRow) (rest : List SourceRow) :
    ∃ kept ∈ [best, r], extreme d position best (r :: rest) = extreme d position kept rest ∧
      ∀ q ∈ [best, r], keyAt position q ≠ .null → keyAt position kept ≠ .null ∧
        (orderBy d (keyAt position kept) (keyAt position q)).isLE = true := by
  have hnull : (best.keys.getD position .null).isNull = true ↔ keyAt position best = .null := SqlValue.isNull_iff
  have hbetter : (!(r.keys.getD position .null).isNull &&
      betters d (r.keys.getD position .null) (best.keys.getD position .null)) = true ↔
      keyAt position r ≠ .null ∧ d.Before (keyAt position r) (keyAt position best) := by
    rw [Bool.and_eq_true, Bool.not_eq_true', ← Bool.not_eq_true, SqlValue.isNull_iff, betters_iff]
    rfl
  simp only [extreme]
  split
  · rename_i hbest
    refine ⟨r, by simp, rfl, fun q hq hvalue => ?_⟩
    rcases List.mem_pair.mp hq with rfl | rfl
    · exact absurd (hnull.mp hbest) hvalue
    · exact ⟨hvalue, Std.ReflCmp.isLE_rfl⟩
  rename_i hbest
  split
  · rename_i hr
    obtain ⟨hvalue, hbefore⟩ := hbetter.mp hr
    refine ⟨r, by simp, rfl, fun q hq _ => ⟨hvalue, ?_⟩⟩
    rcases List.mem_pair.mp hq with rfl | rfl
    · rw [orderBy_eq_lt.mpr hbefore]
      rfl
    · exact Std.ReflCmp.isLE_rfl
  · rename_i hr
    refine ⟨best, by simp, rfl, fun q hq hvalue => ⟨mt hnull.mpr hbest, ?_⟩⟩
    rcases List.mem_pair.mp hq with rfl | rfl
    · exact Std.ReflCmp.isLE_rfl
    · exact isLE_of_not_before fun hbefore => hr (hbetter.mpr ⟨hvalue, hbefore⟩)

theorem extreme_mem (d : SortDirection) (position : Nat) (best : SourceRow) (rest : List SourceRow) :
    extreme d position best rest ∈ best :: rest := by
  induction rest generalizing best with
  | nil => exact List.mem_cons_self
  | cons r rest ih =>
    obtain ⟨kept, hkept, heq, _⟩ := extreme_cons d position best r rest
    rw [heq]
    rcases List.mem_cons.mp (ih kept) with hmem | hmem
    · rw [hmem]
      exact List.mem_append_left rest hkept
    · exact List.mem_cons_of_mem _ (List.mem_cons_of_mem _ hmem)

theorem extreme_first (d : SortDirection) (position : Nat) (best : SourceRow) (rest : List SourceRow) :
    ∀ q ∈ best :: rest, keyAt position q ≠ .null → keyAt position (extreme d position best rest) ≠ .null ∧
      (orderBy d (keyAt position (extreme d position best rest)) (keyAt position q)).isLE = true := by
  induction rest generalizing best with
  | nil =>
    intro q hq hvalue
    rw [List.mem_singleton.mp hq] at hvalue ⊢
    exact ⟨hvalue, Std.ReflCmp.isLE_rfl⟩
  | cons r rest ih =>
    intro q hq hvalue
    obtain ⟨kept, _, heq, hfirst⟩ := extreme_cons d position best r rest
    rw [heq]
    rcases List.mem_append.mp (show q ∈ [best, r] ++ rest from hq) with hq | hq
    · obtain ⟨hkept, hle⟩ := hfirst q hq hvalue
      obtain ⟨hext, hle'⟩ := ih kept kept List.mem_cons_self hkept
      exact ⟨hext, Std.TransCmp.isLE_trans hle' hle⟩
    · exact ih kept q (List.mem_cons_of_mem _ hq) hvalue

theorem extreme_isKey (d : SortDirection) (position : Nat) (best : SourceRow) (rest : List SourceRow) :
    d.IsKey (fun v => ∃ q ∈ best :: rest, keyAt position q = v) (keyAt position (extreme d position best rest)) := by
  have hfirst := extreme_first d position best rest
  by_cases hnull : keyAt position (extreme d position best rest) = .null
  · refine Or.inl ⟨hnull, ?_⟩
    rintro w ⟨q, hq, rfl⟩
    by_contra hvalue
    exact (hfirst q hq hvalue).1 hnull
  · refine Or.inr ⟨hnull, ⟨_, extreme_mem d position best rest, rfl⟩, ?_⟩
    rintro w ⟨q, hq, rfl⟩ hvalue
    exact not_before_of_isLE (hfirst q hq hvalue).2

theorem keysOf_eq (first : SourceRow) (rest : List SourceRow) (position : Nat) (directions : List SortDirection) :
    keysOf first rest position directions =
      (directions.zipIdx position).map fun p => keyAt p.2 (extreme p.1 p.2 first rest) := by
  induction directions generalizing position with
  | nil => rfl
  | cons d more ih => rw [keysOf, ih, List.zipIdx_cons, List.map_cons, keyAt]

/-! ## Order of results -/

theorem keysBefore_of_orderKeys {directions : List SortDirection} {vs ws : List SqlValue}
    (h : orderKeys directions vs ws = .lt) : KeysBefore directions vs ws := by
  induction directions generalizing vs ws with
  | nil => cases h
  | cons d ds ih =>
    rcases vs with _ | ⟨v, vs⟩
    · cases h
    rcases ws with _ | ⟨w, ws⟩
    · cases h
    rw [orderKeys] at h
    cases hvw : orderBy d v w with
    | lt => exact .here (orderBy_eq_lt.mp hvw)
    | eq =>
      rw [hvw] at h
      exact .tie (orderBy_eq_eq.mp hvw) (ih h)
    | gt =>
      rw [hvw] at h
      cases h

theorem tie_of_orderKeys {directions : List SortDirection} {vs ws : List SqlValue}
    (hvs : vs.length = directions.length) (hws : ws.length = directions.length)
    (h : orderKeys directions vs ws = .eq) : List.Forall₂ (fun v w => v.order w = .eq) vs ws := by
  induction directions generalizing vs ws with
  | nil =>
    rw [List.length_eq_zero_iff.mp hvs, List.length_eq_zero_iff.mp hws]
    exact .nil
  | cons d ds ih =>
    rcases vs with _ | ⟨v, vs⟩
    · cases hvs
    rcases ws with _ | ⟨w, ws⟩
    · cases hws
    rw [orderKeys, Ordering.then_eq_eq, orderBy_eq_eq] at h
    exact .cons h.1 (ih (Nat.succ.inj hvs) (Nat.succ.inj hws) h.2)

/-- The order by the keys from some position on, where missing ones count as nulls. -/
def orderFrom (position : Nat) : List SortDirection → List SqlValue → List SqlValue → Ordering
  | [] => fun _ _ => .eq
  | d :: ds =>
    compareLex (fun vs ws => orderBy d (vs.getD position .null) (ws.getD position .null)) (orderFrom (position + 1) ds)

instance (position : Nat) (directions : List SortDirection) : Std.TransCmp (orderFrom position directions) := by
  induction directions generalizing position with
  | nil => exact { eq_swap := rfl, isLE_trans := fun _ _ => rfl }
  | cons d ds ih =>
    have hrest := ih (position + 1)
    have hfirst : Std.TransCmp fun vs ws : List SqlValue =>
        orderBy d (vs.getD position .null) (ws.getD position .null) :=
      { eq_swap := Std.OrientedCmp.eq_swap, isLE_trans := Std.TransCmp.isLE_trans }
    exact inferInstanceAs (Std.TransCmp (compareLex _ _))

theorem orderFrom_eq {position : Nat} {directions : List SortDirection} {vs ws : List SqlValue}
    (hvs : vs.length = position + directions.length) (hws : ws.length = position + directions.length) :
    orderFrom position directions vs ws = orderKeys directions (vs.drop position) (ws.drop position) := by
  induction directions generalizing position with
  | nil => rfl
  | cons d ds ih =>
    rw [List.length_cons] at hvs hws
    have hv : position < vs.length := by omega
    have hw : position < ws.length := by omega
    rw [List.drop_eq_getElem_cons hv, List.drop_eq_getElem_cons hw, orderKeys, ← ih (by omega) (by omega), orderFrom,
      compareLex, List.getD_eq_getElem vs _ hv, List.getD_eq_getElem ws _ hw]

/-- The order of results. It is transitive also among those that lack keys. -/
def resultOrder (s : Statement) : Found → Found → Ordering :=
  compareLex (fun a b => orderFrom 0 s.directions a.keys b.keys)
    (if s.breakTies then compareOn Found.docId else fun _ _ => .eq)

instance (s : Statement) : Std.TransCmp s.resultOrder := by
  have hkeys : Std.TransCmp fun a b : Found => orderFrom 0 s.directions a.keys b.keys :=
    { eq_swap := Std.OrientedCmp.eq_swap, isLE_trans := Std.TransCmp.isLE_trans }
  have hids : Std.TransCmp (if s.breakTies then compareOn Found.docId else fun _ _ => .eq) := by
    split
    · infer_instance
    · exact { eq_swap := rfl, isLE_trans := fun _ _ => rfl }
  exact inferInstanceAs (Std.TransCmp (compareLex _ _))

theorem isBefore_eq {s : Statement} {a b : Found} (ha : a.keys.length = s.directions.length)
    (hb : b.keys.length = s.directions.length) : s.isBefore a b = (s.resultOrder a b).isLE := by
  have hkeys : orderFrom 0 s.directions a.keys b.keys = orderKeys s.directions a.keys b.keys :=
    orderFrom_eq (by omega) (by omega)
  have hne : ∀ o : Ordering, (o != .gt) = o.isLE := by decide
  unfold isBefore resultOrder
  simp only [hne, compareLex, hkeys]
  split
  · rfl
  · rw [Ordering.then_eq]

theorem pairwise_mergeSort (s : Statement) {found : List Found}
    (hkeys : ∀ f ∈ found, f.keys.length = s.directions.length) :
    (found.mergeSort s.isBefore).Pairwise fun a b => s.isBefore a b = true := by
  have hsame : (found.mergeSort s.isBefore).map id = (found.map id).mergeSort fun a b => (s.resultOrder a b).isLE :=
    List.map_mergeSort fun a ha b hb => isBefore_eq (hkeys a ha) (hkeys b hb)
  rw [List.map_id, List.map_id] at hsame
  have hsorted : (found.mergeSort s.isBefore).Pairwise fun a b => (s.resultOrder a b).isLE = true := by
    rw [hsame]
    refine List.pairwise_mergeSort (fun _ _ _ => Std.TransCmp.isLE_trans) (fun a b => ?_) found
    have hswap : s.resultOrder a b = (s.resultOrder b a).swap := Std.OrientedCmp.eq_swap
    cases hba : s.resultOrder b a <;> simp [hswap, hba]
  refine hsorted.imp_of_mem fun {a b} ha hb hab => ?_
  rw [List.mem_mergeSort] at ha hb
  rw [isBefore_eq (hkeys a ha) (hkeys b hb), hab]

theorem of_isBefore {s : Statement} {a b : Found} (ha : a.keys.length = s.directions.length)
    (hb : b.keys.length = s.directions.length) (h : s.isBefore a b = true) :
    KeysBefore s.directions a.keys b.keys ∨
      (List.Forall₂ (fun v w => v.order w = .eq) a.keys b.keys ∧
        (s.breakTies = true → a.docId < b.docId ∨ a.docId = b.docId)) := by
  unfold isBefore at h
  cases hkeys : orderKeys s.directions a.keys b.keys with
  | lt => exact Or.inl (keysBefore_of_orderKeys hkeys)
  | gt => simp [hkeys] at h
  | eq =>
    refine Or.inr ⟨tie_of_orderKeys ha hb hkeys, fun hties => ?_⟩
    simp only [hkeys, hties, if_true, Ordering.eq_then, bne_iff_ne, compareOfLessAndEq] at h
    split at h
    · exact Or.inl ‹_›
    split at h
    · exact Or.inr ‹_›
    · exact absurd rfl h

end Statement

end DocIndex
