import DocIndex.Maintenance.Update
import DocIndex.Proofs.Document.Feed
import DocIndex.Proofs.Index.Content

/-! # What a page leaves behind

A page fetched at one moment is applied later, when documents may have been written again or purged. It
covers a stretch of the feed all the same: a latest revision of that stretch is in the page, because
writes only happen behind the stretch. An index follows a store from its start if its rows are right
up to its checkpoint; it still follows after a page that covers the stretch behind the checkpoint.
-/

namespace DocIndex

/-- The page has what the store has between two sequences. -/
structure Page.Covers (p : Page) (s : Store) (since : Int) : Prop where
  since_lt : since < p.checkpoint
  checkpoint_le : p.checkpoint ≤ s.sequence
  complete : ∀ id r, s.winning? id = some r → since < r.sequence → r.sequence ≤ p.checkpoint → r ∈ p.changes
  between : ∀ r ∈ p.changes, since < r.sequence ∧ r.sequence ≤ p.checkpoint
  latest : ∀ r ∈ p.changes, ∀ q, s.winning? r.docId = some q → r.sequence ≤ q.sequence
  nodup : (p.changes.map (·.docId)).Nodup
  ascending : p.changes.Pairwise (·.sequence < ·.sequence)

namespace Page

variable {p : Page} {s t : Store} {since target : Int}

theorem Covers.of_precedes (h : p.Covers s since) (hst : s.Precedes t) : p.Covers t since := by
  have hle := hst.sequence_le
  refine ⟨h.since_lt, Int.le_trans h.checkpoint_le hle, ?_, h.between, ?_, h.nodup, h.ascending⟩
  · intro id r hr hlt hbound
    have hs := hst.winning_of_le id r hr (Int.le_trans hbound h.checkpoint_le)
    exact h.complete id r hs hlt hbound
  · intro r hr q hq
    by_cases hqs : q.sequence ≤ s.sequence
    · exact h.latest r hr q (hst.winning_of_le _ q hq hqs)
    · have := (h.between r hr).2
      have := h.checkpoint_le
      omega

theorem mem_cut_changes {batchSize : Nat} {fetched : List Revision} {r : Revision} :
    r ∈ (cut target batchSize fetched).changes ↔ r ∈ fetched ∧ r.sequence ≤ target := by
  simp [cut]

/-- A page leads to the target if the feed ends before it is full, or goes on past the target; otherwise it
leads to its last change. -/
theorem cut_checkpoint (target : Int) {batchSize : Nat} (hpos : 0 < batchSize) (fetched : List Revision) :
    ((cut target batchSize fetched).checkpoint = target ∧
      (fetched.length < batchSize ∨ ∃ q ∈ fetched, target < q.sequence)) ∨
    ((cut target batchSize fetched).changes = fetched ∧
      ∃ r, fetched.getLast? = some r ∧ (cut target batchSize fetched).checkpoint = r.sequence) := by
  by_cases hlast : fetched.length < batchSize ∨ ∃ q ∈ fetched, target < q.sequence
  · left
    refine ⟨?_, hlast⟩
    have hflag : (fetched.length < batchSize ||
        (fetched.filter (·.sequence ≤ target)).length < fetched.length) = true := by
      rw [Bool.or_eq_true, decide_eq_true_iff, decide_eq_true_iff]
      refine hlast.imp_right ?_
      rintro ⟨q, hq, hlt⟩
      rw [List.length_filter_lt_length_iff_exists]
      exact ⟨q, hq, by simpa using hlt⟩
    simp only [cut, hflag]
    cases (fetched.filter (·.sequence ≤ target)).getLast? <;> rfl
  · right
    rw [not_or] at hlast
    have hall : fetched.filter (·.sequence ≤ target) = fetched := by
      rw [List.filter_eq_self]
      intro q hq
      rw [decide_eq_true_iff]
      by_contra hgt
      exact hlast.2 ⟨q, hq, by omega⟩
    have hne : fetched ≠ [] := by
      rintro rfl
      exact hlast.1 hpos
    obtain ⟨r, hr⟩ := Option.ne_none_iff_exists'.mp (mt List.getLast?_eq_none_iff.mp hne)
    refine ⟨hall, r, hr, ?_⟩
    simp [cut, hall, hr, hlast.1]

theorem cut_covers (hs : s.WellFormed) {batchSize : Nat} (hpos : 0 < batchSize) (hlt : since < target)
    (htarget : target ≤ s.sequence) :
    (cut target batchSize (s.changesSince since batchSize)).Covers s since := by
  have hasc := hs.changesSince_ascending since batchSize
  have hgoes : s.GoesOnAfter since := .of_lt (Int.lt_of_lt_of_le hlt htarget)
  have hwin : ∀ r ∈ s.changesSince since batchSize, s.winning? r.docId = some r ∧ since < r.sequence :=
    fun r hr => ⟨hs.winning_of_mem_changesSince hr, hs.lt_of_mem_changesSince hgoes hr⟩
  have hbounds : (cut target batchSize (s.changesSince since batchSize)).checkpoint ≤ target ∧
      since < (cut target batchSize (s.changesSince since batchSize)).checkpoint ∧
      ∀ r ∈ (cut target batchSize (s.changesSince since batchSize)).changes,
        r.sequence ≤ (cut target batchSize (s.changesSince since batchSize)).checkpoint := by
    rcases cut_checkpoint target hpos (s.changesSince since batchSize) with ⟨h, _⟩ | ⟨hall, last, hl, h⟩
    · rw [h]
      exact ⟨Int.le_refl _, hlt, fun r hr => (mem_cut_changes.mp hr).2⟩
    · have hmem : last ∈ s.changesSince since batchSize := List.mem_of_getLast? hl
      have hkept : last ∈ (cut target batchSize (s.changesSince since batchSize)).changes := by
        rw [hall]; exact hmem
      rw [h]
      refine ⟨(mem_cut_changes.mp hkept).2, (hwin last hmem).2, fun r hr => ?_⟩
      exact Store.sequence_le_getLast hasc hl (mem_cut_changes.mp hr).1
  refine ⟨hbounds.2.1, Int.le_trans hbounds.1 htarget, ?_, ?_, ?_, ?_, ?_⟩
  · intro id r hr hsince hle
    rw [mem_cut_changes]
    refine ⟨?_, Int.le_trans hle hbounds.1⟩
    rcases hs.mem_changesSince_or hr hsince batchSize with h | ⟨hfull, hbefore⟩
    · exact h
    · exfalso
      rcases cut_checkpoint target hpos (s.changesSince since batchSize) with
        ⟨_, hshort | ⟨q, hq, hgt⟩⟩ | ⟨_, last, hl, h⟩
      · omega
      · have := hbefore q hq
        omega
      · have := hbefore last (List.mem_of_getLast? hl)
        omega
  · exact fun r hr => ⟨(hwin r (mem_cut_changes.mp hr).1).2, hbounds.2.2 r hr⟩
  · intro r hr q hq
    have hr' := (hwin r (mem_cut_changes.mp hr).1).1
    rw [hr'] at hq
    exact Int.le_of_eq (congrArg Revision.sequence (Option.some.inj hq))
  · exact (hs.changesSince_docIds_nodup since batchSize).sublist (List.filter_sublist.map _)
  · exact hasc.sublist List.filter_sublist

end Page

end DocIndex
