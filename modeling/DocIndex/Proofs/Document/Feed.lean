import DocIndex.Document.Store
import DocIndex.Proofs.Basic
import Mathlib.Data.List.Nodup
import Mathlib.Order.Basic

/-! # Histories and the change feed

A store is well formed if its feed has exactly one entry for each document, at the sequence of the
latest revision, and if sequences ascend along every history. Writes and purges keep this. What a
feed request leaves out then lies behind everything it gives.
-/

namespace DocIndex

namespace Store

/-- Histories ascend, and the feed lists the latest revision of every document. -/
structure WellFormed (s : Store) : Prop where
  nonneg : 0 ≤ s.sequence
  docId_eq : ∀ id, ∀ r ∈ s.history id, r.docId = id
  ascending : ∀ id, (s.history id).Pairwise (·.sequence < ·.sequence)
  bounded : ∀ id, ∀ r ∈ s.history id, 0 < r.sequence ∧ r.sequence ≤ s.sequence
  revId_eq : ∀ id, ∀ r ∈ s.history id, ∃ g, r.revId = Revision.makeId g r.sequence
  feed_ascending : s.feed.Pairwise (·.1 < ·.1)
  mem_feed : ∀ seq id, (seq, id) ∈ s.feed ↔ ∃ r, s.winning? id = some r ∧ r.sequence = seq

/-- `t` comes later than `s`: what it has up to the sequence of `s` was there already. -/
structure Precedes (s t : Store) : Prop where
  sequence_le : s.sequence ≤ t.sequence
  winning_of_le : ∀ id r, t.winning? id = some r → r.sequence ≤ s.sequence → s.winning? id = some r

variable {s t u : Store} {id docId revId : String} {r : Revision}

theorem Precedes.refl (s : Store) : s.Precedes s := ⟨Int.le_refl _, fun _ _ h _ => h⟩

theorem Precedes.trans (hst : s.Precedes t) (htu : t.Precedes u) : s.Precedes u := by
  refine ⟨Int.le_trans hst.sequence_le htu.sequence_le, ?_⟩
  intro id r hr hle
  have ht := htu.winning_of_le id r hr (Int.le_trans hle hst.sequence_le)
  exact hst.winning_of_le id r ht hle

theorem mem_history_of_winning? (h : s.winning? id = some r) : r ∈ s.history id :=
  List.mem_of_getLast? h

namespace WellFormed

theorem winning_docId (hs : s.WellFormed) (h : s.winning? id = some r) : r.docId = id :=
  hs.docId_eq id r (mem_history_of_winning? h)

theorem winning_bounded (hs : s.WellFormed) (h : s.winning? id = some r) :
    0 < r.sequence ∧ r.sequence ≤ s.sequence :=
  hs.bounded id r (mem_history_of_winning? h)

end WellFormed

/-! ## Histories after a write and after a purge -/

theorem find?_appendTo (r : Revision) (hs : List (String × List Revision)) (id : String) :
    (appendTo r hs).find? (·.1 == id) =
      if id = r.docId then some (id, (({ histories := hs } : Store).history id) ++ [r])
      else hs.find? (·.1 == id) := by
  induction hs with
  | nil =>
    by_cases h : id = r.docId
    · simp [appendTo, history, h]
    · simp [appendTo, h, Ne.symm h]
  | cons entry rest ih =>
    obtain ⟨key, revisions⟩ := entry
    by_cases hk : key = r.docId
    · by_cases h : id = r.docId
      · simp [appendTo, history, hk, h]
      · have hne : ¬ r.docId = id := Ne.symm h
        simp [appendTo, hk, h, hne]
    · simp only [appendTo, hk, if_false, List.find?_cons]
      by_cases hid : key = id
      · have hne : ¬ id = r.docId := fun h => hk (hid.trans h)
        simp [hid, hne]
      · rw [ih]
        have hb : (key == id) = false := by simpa using hid
        simp [history, hb]

theorem history_record (s : Store) (docId : String) (g : Nat) (deleted : Bool) (body : Object) (id : String) :
    (s.record docId g deleted body).2.history id =
      if id = docId then s.history id ++ [(s.record docId g deleted body).1] else s.history id := by
  have h := find?_appendTo (s.record docId g deleted body).1 s.histories id
  by_cases hid : id = docId
  · simp only [record, history, hid, if_true] at h ⊢
    rw [h]
  · simp only [record, history, hid, if_false] at h ⊢
    rw [h]

theorem winning?_record (s : Store) (docId : String) (g : Nat) (deleted : Bool) (body : Object) (id : String) :
    (s.record docId g deleted body).2.winning? id =
      if id = docId then some (s.record docId g deleted body).1 else s.winning? id := by
  simp only [winning?, history_record]
  by_cases hid : id = docId <;> simp [hid]

theorem history_purge (s : Store) (docId id : String) :
    (s.purge docId).2.history id = if id = docId then [] else s.history id := by
  unfold purge
  cases hf : s.histories.find? (·.1 == docId) with
  | none =>
    by_cases hid : id = docId
    · simp [history, hid, hf]
    · simp [hid]
  | some h =>
    by_cases hid : id = docId
    · have hnone : (s.histories.filter (·.1 != docId)).find? (·.1 == docId) = none := by
        simp [List.find?_eq_none]
      simp [history, hid, hnone]
    · have hkeep : (s.histories.filter (·.1 != docId)).find? (·.1 == id) =
          s.histories.find? (·.1 == id) := by
        rw [List.find?_filter]
        congr 1
        funext e
        by_cases he : e.1 = id
        · simp [he, hid]
        · simp [he]
      simp [history, hid, hkeep]

theorem winning?_purge (s : Store) (docId id : String) :
    (s.purge docId).2.winning? id = if id = docId then none else s.winning? id := by
  simp only [winning?, history_purge]
  by_cases hid : id = docId <;> simp [hid]

/-! ## What keeps a store well formed -/

namespace WellFormed

theorem empty : WellFormed {} where
  nonneg := Int.le_refl 0
  docId_eq := by simp [history]
  ascending := by simp [history]
  bounded := by simp [history]
  revId_eq := by simp [history]
  feed_ascending := List.Pairwise.nil
  mem_feed := by simp [winning?, history]

theorem feed_entry_unique (hs : s.WellFormed) {seq : Int} (hm : (seq, id) ∈ s.feed)
    (hr : s.winning? id = some r) : seq = r.sequence := by
  obtain ⟨q, hq, rfl⟩ := (hs.mem_feed seq id).mp hm
  rw [hr] at hq
  exact congrArg Revision.sequence (Option.some.inj hq).symm

theorem not_mem_feed (hs : s.WellFormed) (hw : s.winning? docId = none) (seq : Int) :
    (seq, docId) ∉ s.feed := by
  intro hm
  obtain ⟨q, hq, _⟩ := (hs.mem_feed _ _).mp hm
  simp [hw] at hq

theorem mem_feed_without (hs : s.WellFormed) (hr : s.winning? docId = some r) (seq : Int) (id : String) :
    (seq, id) ∈ s.feed.filter (·.1 != r.sequence) ↔ (seq, id) ∈ s.feed ∧ id ≠ docId := by
  simp only [List.mem_filter, bne_iff_ne, ne_eq]
  constructor
  · rintro ⟨hm, hne⟩
    refine ⟨hm, fun hid => hne ?_⟩
    subst hid
    exact hs.feed_entry_unique hm hr
  · rintro ⟨hm, hne⟩
    refine ⟨hm, fun heq => hne ?_⟩
    subst heq
    have hown : (r.sequence, docId) ∈ s.feed := (hs.mem_feed _ _).mpr ⟨r, hr, rfl⟩
    obtain ⟨q, hq, hqr⟩ := (hs.mem_feed _ _).mp hm
    by_contra hid
    have hnodup : (s.feed.map (·.1)).Nodup := by
      rw [List.nodup_iff_pairwise_ne, List.pairwise_map]
      exact hs.feed_ascending.imp fun h => Int.ne_of_lt h
    have heq := List.inj_on_of_nodup_map hnodup hm hown rfl
    exact hid (congrArg Prod.snd heq)

theorem mem_feed_record (hs : s.WellFormed) (docId : String) (g : Nat) (deleted : Bool) (body : Object)
    (seq : Int) (id : String) :
    (seq, id) ∈ (s.record docId g deleted body).2.feed ↔
      ((seq, id) ∈ s.feed ∧ id ≠ docId) ∨ (seq = s.sequence + 1 ∧ id = docId) := by
  simp only [record]
  cases hw : s.winning? docId with
  | none =>
    simp only [List.mem_append, List.mem_singleton, Prod.mk.injEq]
    refine or_congr_left ⟨fun hm => ⟨hm, ?_⟩, And.left⟩
    rintro rfl
    exact hs.not_mem_feed hw seq hm
  | some previous =>
    simp only [List.mem_append, List.mem_singleton, Prod.mk.injEq]
    exact or_congr_left (hs.mem_feed_without hw seq id)

theorem mem_history_record {docId : String} {g : Nat} {deleted : Bool} {body : Object} {id : String} {q : Revision}
    (hq : q ∈ (s.record docId g deleted body).2.history id) :
    q ∈ s.history id ∨ (id = docId ∧ q = (s.record docId g deleted body).1) := by
  rw [history_record] at hq
  by_cases hid : id = docId
  · rw [if_pos hid, List.mem_append, List.mem_singleton] at hq
    exact hq.imp_right fun h => ⟨hid, h⟩
  · rw [if_neg hid] at hq
    exact Or.inl hq

theorem feed_ascending_record (hs : s.WellFormed) (docId : String) (g : Nat) (deleted : Bool) (body : Object) :
    (s.record docId g deleted body).2.feed.Pairwise (·.1 < ·.1) := by
  have hkept : ∀ l : List (Int × String), List.Sublist l s.feed →
      (l ++ [(s.sequence + 1, docId)]).Pairwise (·.1 < ·.1) := by
    intro l hl
    refine List.pairwise_append.mpr ⟨hs.feed_ascending.sublist hl, List.pairwise_singleton _ _, ?_⟩
    rintro ⟨seq, id⟩ he new hnew
    rw [List.mem_singleton] at hnew
    subst hnew
    obtain ⟨q, hq, rfl⟩ := (hs.mem_feed seq id).mp (hl.subset he)
    have hbound := (hs.winning_bounded hq).2
    simp only
    omega
  unfold Store.record
  cases s.winning? docId with
  | none => exact hkept _ (List.Sublist.refl _)
  | some previous => exact hkept _ List.filter_sublist

theorem record (hs : s.WellFormed) (docId : String) (g : Nat) (deleted : Bool) (body : Object) :
    (s.record docId g deleted body).2.WellFormed := by
  have hseq : (s.record docId g deleted body).2.sequence = s.sequence + 1 := rfl
  have hnew : (s.record docId g deleted body).1.sequence = s.sequence + 1 := rfl
  have hnonneg := hs.nonneg
  constructor
  · omega
  · intro id q hq
    rcases mem_history_record hq with h | ⟨rfl, rfl⟩
    · exact hs.docId_eq id q h
    · rfl
  · intro id
    rw [history_record]
    split
    · refine List.pairwise_append.mpr ⟨hs.ascending id, List.pairwise_singleton _ _, ?_⟩
      intro q hq new hmem
      rw [List.mem_singleton] at hmem
      subst hmem
      have := (hs.bounded id q hq).2
      omega
    · exact hs.ascending id
  · intro id q hq
    rcases mem_history_record hq with h | ⟨_, rfl⟩
    · have := hs.bounded id q h
      omega
    · omega
  · intro id q hq
    rcases mem_history_record hq with h | ⟨_, rfl⟩
    · exact hs.revId_eq id q h
    · exact ⟨g, rfl⟩
  · exact hs.feed_ascending_record docId g deleted body
  · intro seq id
    rw [hs.mem_feed_record, winning?_record]
    by_cases hid : id = docId
    · simp [hid, hnew, eq_comm]
    · simp [hid, hs.mem_feed]

theorem purge_feed_sublist (s : Store) (docId : String) : List.Sublist (s.purge docId).2.feed s.feed := by
  unfold Store.purge
  cases s.histories.find? (·.1 == docId) with
  | none => exact List.Sublist.refl _
  | some h =>
    dsimp only
    cases h.2.getLast? with
    | none => exact List.Sublist.refl _
    | some r => exact List.filter_sublist

theorem mem_feed_purge (hs : s.WellFormed) (docId : String) (seq : Int) (id : String) :
    (seq, id) ∈ (s.purge docId).2.feed ↔ (seq, id) ∈ s.feed ∧ id ≠ docId := by
  unfold Store.purge
  cases hf : s.histories.find? (·.1 == docId) with
  | none =>
    have hw : s.winning? docId = none := by simp [winning?, history, hf]
    refine ⟨fun hm => ⟨hm, ?_⟩, And.left⟩
    rintro rfl
    exact hs.not_mem_feed hw seq hm
  | some h =>
    have hw : s.winning? docId = h.2.getLast? := by simp [winning?, history, hf]
    dsimp only
    cases hl : h.2.getLast? with
    | none =>
      refine ⟨fun hm => ⟨hm, ?_⟩, And.left⟩
      rintro rfl
      exact hs.not_mem_feed (hw.trans hl) seq hm
    | some r => exact hs.mem_feed_without (hw.trans hl) seq id

theorem purge_sequence (s : Store) (docId : String) : (s.purge docId).2.sequence = s.sequence := by
  unfold Store.purge
  split <;> rfl

theorem purge (hs : s.WellFormed) (docId : String) : (s.purge docId).2.WellFormed := by
  have hseq := purge_sequence s docId
  have hmem : ∀ id, ∀ q ∈ (s.purge docId).2.history id, q ∈ s.history id := by
    intro id q hq
    rw [history_purge] at hq
    split at hq
    · simp at hq
    · exact hq
  constructor
  · rw [hseq]; exact hs.nonneg
  · exact fun id q hq => hs.docId_eq id q (hmem id q hq)
  · intro id
    rw [history_purge]
    split
    · exact List.Pairwise.nil
    · exact hs.ascending id
  · intro id q hq
    rw [hseq]
    exact hs.bounded id q (hmem id q hq)
  · exact fun id q hq => hs.revId_eq id q (hmem id q hq)
  · exact hs.feed_ascending.sublist (purge_feed_sublist s docId)
  · intro seq id
    rw [hs.mem_feed_purge, winning?_purge, hs.mem_feed]
    by_cases hid : id = docId <;> simp [hid]

end WellFormed

/-! ## Requests -/

/-- What the record of an accepted request is: the first revision of its document, or the one after the latest. A
tombstone has no body, and it is only recorded on a live revision. -/
structure Continues (s : Store) (docId : String) (g : Nat) (deleted : Bool) (body : Object) : Prop where
  first : s.winning? docId = none → g = 1 ∧ deleted = false
  next : ∀ current, s.winning? docId = some current →
    g = current.generation?.getD 0 + 1 ∧ (current.deleted = true → deleted = false)
  body_eq : deleted = true → body = []

theorem eq_record_of_create {body : Object} {t : Store} (h : s.create docId body = .ok (r, t)) :
    ∃ g, (r, t) = s.record docId g false body ∧ s.Continues docId g false body := by
  unfold create at h
  obtain ⟨_, _, h⟩ := ok_of_bind h
  cases hw : s.winning? docId with
  | none =>
    simp only [hw] at h
    exact ⟨1, (Except.ok.inj h).symm, fun _ => ⟨rfl, rfl⟩, fun current hc => by simp [hw] at hc, nofun⟩
  | some current =>
    simp only [hw] at h
    split at h
    · refine ⟨_, (Except.ok.inj h).symm, fun hnone => by simp [hw] at hnone, ?_, nofun⟩
      intro latest hl
      obtain rfl := Option.some.inj (hw.symm.trans hl)
      exact ⟨rfl, fun _ => rfl⟩
    · cases h

theorem currentGeneration_ok {g : Nat} (h : s.currentGeneration docId revId = .ok g) :
    ∃ current, s.winning? docId = some current ∧ current.revId = revId ∧ current.deleted = false ∧
      g = current.generation?.getD 0 := by
  unfold currentGeneration at h
  cases hw : s.winning? docId with
  | none => simp [hw] at h
  | some current =>
    simp only [hw] at h
    split at h
    · cases h
    · rename_i hlive
      rw [not_or, not_not, Bool.not_eq_true] at hlive
      exact ⟨current, rfl, hlive.1, hlive.2, (Except.ok.inj h).symm⟩

theorem Continues.of_currentGeneration {g : Nat} {deleted : Bool} {body : Object}
    (h : s.currentGeneration docId revId = .ok g) (hbody : deleted = true → body = []) :
    s.Continues docId (g + 1) deleted body := by
  obtain ⟨current, hw, _, hlive, rfl⟩ := currentGeneration_ok h
  refine ⟨fun hnone => by simp [hw] at hnone, ?_, hbody⟩
  intro latest hl
  obtain rfl := Option.some.inj (hw.symm.trans hl)
  exact ⟨rfl, fun hdeleted => by simp [hlive] at hdeleted⟩

theorem eq_record_of_update {body : Object} {t : Store} (h : s.update docId revId body = .ok (r, t)) :
    ∃ g, (r, t) = s.record docId g false body ∧ s.Continues docId g false body := by
  unfold update at h
  obtain ⟨_, _, h⟩ := ok_of_bind h
  obtain ⟨g, hg, h⟩ := ok_of_bind h
  exact ⟨g + 1, (Except.ok.inj h).symm, .of_currentGeneration hg nofun⟩

theorem eq_record_of_delete {t : Store} (h : s.delete docId revId = .ok (r, t)) :
    ∃ g, (r, t) = s.record docId g true [] ∧ s.Continues docId g true [] := by
  unfold delete at h
  obtain ⟨g, hg, h⟩ := ok_of_bind h
  exact ⟨g + 1, (Except.ok.inj h).symm, .of_currentGeneration hg fun _ => rfl⟩

theorem precedes_record (s : Store) (docId : String) (g : Nat) (deleted : Bool) (body : Object) :
    s.Precedes (s.record docId g deleted body).2 := by
  have hseq : (s.record docId g deleted body).2.sequence = s.sequence + 1 := rfl
  have hnew : (s.record docId g deleted body).1.sequence = s.sequence + 1 := rfl
  refine ⟨by omega, ?_⟩
  intro id q hq hle
  rw [winning?_record] at hq
  split at hq
  · obtain rfl := Option.some.inj hq
    omega
  · exact hq

theorem precedes_purge (s : Store) (docId : String) : s.Precedes (s.purge docId).2 := by
  refine ⟨Int.le_of_eq (WellFormed.purge_sequence s docId).symm, ?_⟩
  intro id q hq _
  rw [winning?_purge] at hq
  split at hq
  · cases hq
  · exact hq

/-! ## Feed requests -/

theorem sequence_le_getLast {fetched : List Revision} (hasc : fetched.Pairwise (·.sequence < ·.sequence))
    {last r : Revision} (hl : fetched.getLast? = some last) (hr : r ∈ fetched) : r.sequence ≤ last.sequence := by
  obtain ⟨front, rfl⟩ := List.getLast?_eq_some_iff.mp hl
  rcases List.mem_append.mp hr with h | h
  · exact Int.le_of_lt ((List.pairwise_append.mp hasc).2.2 r h last (List.mem_singleton_self _))
  · exact Int.le_of_eq (congrArg Revision.sequence (List.mem_singleton.mp h))

def latest (s : Store) : List Revision := s.feed.filterMap fun entry => s.winning? entry.2

/-- The changes after a sequence do not begin with this sequence itself. -/
def GoesOnAfter (s : Store) (since : Int) : Prop := ∀ r ∈ s.latest, s.ceiling ≤ r.sequence → since < r.sequence

theorem GoesOnAfter.of_lt {since : Int} (h : since < s.sequence) : s.GoesOnAfter since := by
  intro r _ hceiling
  unfold ceiling at hceiling
  omega

/-- No document was changed last at the last sequence. -/
def IsOpen (s : Store) : Prop := ∀ r ∈ s.latest, r.sequence < s.ceiling

theorem IsOpen.goesOnAfter (h : s.IsOpen) (since : Int) : s.GoesOnAfter since := by
  intro r hr hceiling
  have := h r hr
  omega

namespace WellFormed

variable {since : Int} {limit : Nat}

theorem feed_eq_map_latest (hs : s.WellFormed) : s.feed = s.latest.map fun r => (r.sequence, r.docId) := by
  have hall : ∀ l : List (Int × String), (∀ e ∈ l, e ∈ s.feed) →
      l = (l.filterMap fun e => s.winning? e.2).map fun r => (r.sequence, r.docId) := by
    intro l
    induction l with
    | nil => exact fun _ => rfl
    | cons e rest ih =>
      intro hl
      obtain ⟨r, hr, hseq⟩ := (hs.mem_feed e.1 e.2).mp (hl e List.mem_cons_self)
      have hrest := ih fun e' he' => hl e' (List.mem_cons_of_mem _ he')
      have hcons : (e :: rest).filterMap (fun e => s.winning? e.2) = r :: rest.filterMap fun e => s.winning? e.2 :=
        List.filterMap_cons_some hr
      rw [hcons, List.map_cons, ← hrest, hseq, hs.winning_docId hr]
  exact hall s.feed fun _ he => he

theorem mem_latest (hs : s.WellFormed) : r ∈ s.latest ↔ s.winning? r.docId = some r := by
  constructor
  · intro h
    obtain ⟨entry, _, hw⟩ := List.mem_filterMap.mp h
    rwa [hs.winning_docId hw]
  · exact fun h => List.mem_filterMap.mpr ⟨(r.sequence, r.docId), (hs.mem_feed _ _).mpr ⟨r, h, rfl⟩, h⟩

theorem isOpen (hs : s.WellFormed) (hlt : s.sequence < maxSequence) : s.IsOpen := by
  intro r hr
  have hbound := (hs.winning_bounded (hs.mem_latest.mp hr)).2
  have hceiling : maxSequence ≤ s.ceiling := Int.le_max_left _ _
  omega

theorem latest_ascending (hs : s.WellFormed) : s.latest.Pairwise (·.sequence < ·.sequence) := by
  have h := hs.feed_ascending
  rw [hs.feed_eq_map_latest, List.pairwise_map] at h
  exact h

theorem changesSince_eq_take_from (hs : s.WellFormed) (since : Int) (limit : Nat) :
    s.changesSince since limit = (s.latest.filter (min (since + 1) s.ceiling ≤ ·.sequence)).take limit := by
  have hfound : ∀ l : List Revision, (∀ r ∈ l, r ∈ s.latest) →
      (l.map fun r => (r.sequence, r.docId)).filterMap (fun e => s.winning? e.2) = l := by
    intro l hl
    rw [List.filterMap_map]
    conv_rhs => rw [← List.filterMap_some (l := l)]
    exact List.filterMap_congr fun r hr => hs.mem_latest.mp (hl r hr)
  unfold changesSince
  rw [hs.feed_eq_map_latest, List.filter_map, ← List.map_take]
  exact hfound _ fun r hr => (List.mem_filter.mp (List.mem_of_mem_take hr)).1

theorem changesSince_eq_take (hs : s.WellFormed) (hgoes : s.GoesOnAfter since) (limit : Nat) :
    s.changesSince since limit = (s.latest.filter (since < ·.sequence)).take limit := by
  rw [hs.changesSince_eq_take_from]
  congr 1
  refine List.filter_congr fun r hr => ?_
  have hceiling := hgoes r hr
  rw [decide_eq_decide]
  omega

theorem winning_of_mem_changesSince (hs : s.WellFormed) (h : r ∈ s.changesSince since limit) :
    s.winning? r.docId = some r := by
  rw [hs.changesSince_eq_take_from] at h
  exact hs.mem_latest.mp (List.mem_filter.mp (List.mem_of_mem_take h)).1

theorem lt_of_mem_changesSince (hs : s.WellFormed) (hgoes : s.GoesOnAfter since)
    (h : r ∈ s.changesSince since limit) : since < r.sequence := by
  rw [hs.changesSince_eq_take hgoes] at h
  simpa using (List.mem_filter.mp (List.mem_of_mem_take h)).2

theorem changesSince_ascending (hs : s.WellFormed) (since : Int) (limit : Nat) :
    (s.changesSince since limit).Pairwise (·.sequence < ·.sequence) := by
  rw [hs.changesSince_eq_take_from]
  exact (hs.latest_ascending.filter _).sublist (List.take_sublist _ _)

theorem docIds_nodup {l : List Revision} (hl : ∀ r ∈ l, s.winning? r.docId = some r)
    (hasc : l.Pairwise (·.sequence < ·.sequence)) : (l.map (·.docId)).Nodup := by
  rw [List.nodup_iff_pairwise_ne, List.pairwise_map]
  refine hasc.imp_of_mem fun {a b} ha hb hlt heq => ?_
  have hwa := hl a ha
  rw [heq, hl b hb] at hwa
  obtain rfl := Option.some.inj hwa
  omega

theorem changesSince_docIds_nodup (hs : s.WellFormed) (since : Int) (limit : Nat) :
    ((s.changesSince since limit).map (·.docId)).Nodup :=
  docIds_nodup (fun _ hr => hs.winning_of_mem_changesSince hr) (hs.changesSince_ascending since limit)

/-- A latest revision after the start is given, or the page is full of earlier ones. -/
theorem mem_changesSince_or (hs : s.WellFormed) (hr : s.winning? id = some r) (hlt : since < r.sequence)
    (limit : Nat) :
    r ∈ s.changesSince since limit ∨
      ((s.changesSince since limit).length = limit ∧ ∀ q ∈ s.changesSince since limit, q.sequence < r.sequence) := by
  have hgoes : s.GoesOnAfter since := .of_lt (Int.lt_of_lt_of_le hlt (hs.winning_bounded hr).2)
  have hmem : r ∈ s.latest.filter (since < ·.sequence) := by
    refine List.mem_filter.mpr ⟨hs.mem_latest.mpr ?_, by simpa using hlt⟩
    rwa [hs.winning_docId hr]
  have hasc : (s.latest.filter (since < ·.sequence)).Pairwise (·.sequence < ·.sequence) := hs.latest_ascending.filter _
  have hsplit := List.take_append_drop limit (s.latest.filter (since < ·.sequence))
  rw [hs.changesSince_eq_take hgoes]
  rw [← hsplit] at hasc
  rw [← hsplit, List.mem_append] at hmem
  rcases hmem with hin | hout
  · exact Or.inl hin
  · have hlength := List.length_pos_of_mem hout
    rw [List.length_drop] at hlength
    refine Or.inr ⟨?_, fun q hq => (List.pairwise_append.mp hasc).2.2 q hq r hout⟩
    rw [List.length_take]
    omega

end WellFormed

end Store

end DocIndex
