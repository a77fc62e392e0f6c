import DocIndex.Proofs.Document.Requests
import Mathlib.Algebra.Order.Ring.Int

/-! # Reading the feed page by page

A reader of the feed asks for one page after the other, each from the last sequence that it has received, until a page
is empty. A page is the beginning of what comes after its start, and the next one goes on where it ends. So the pages
together are the latest revisions after the start, each of them once, and only the last page can be short.

Sequences have 64 bits, and none comes after the largest one, `2 ^ 63 - 1`. Every request of a reader who has come to a
change there gives this change again, so such a reader does not come to an end. It takes `2 ^ 63 - 1` revisions to get
there, and the last of them has to be the latest of its document.
-/

namespace DocIndex

namespace Store

/-- The pages that a reader receives who starts after a sequence; the empty page at the end is left out. -/
inductive Paged (s : Store) (limit : Nat) : Int → List (List Revision) → Prop where
  | done {since : Int} (h : s.changesSince since limit = []) : Paged s limit since []
  | more {since : Int} {last : Revision} {rest : List (List Revision)}
      (h : (s.changesSince since limit).getLast? = some last) (hrest : Paged s limit last.sequence rest) :
      Paged s limit since (s.changesSince since limit :: rest)

variable {s : Store} {since : Int} {limit : Nat} {last r : Revision} {pages others : List (List Revision)}

theorem Paged.unique (h : s.Paged limit since pages) (ho : s.Paged limit since others) : others = pages := by
  induction h generalizing others with
  | done hempty =>
    cases ho with
    | done _ => rfl
    | more hl _ => simp [hempty] at hl
  | more hl _ ih =>
    cases ho with
    | done hempty => simp [hempty] at hl
    | more hl' hrest =>
      obtain rfl := Option.some.inj (hl.symm.trans hl')
      rw [ih hrest]

namespace WellFormed

theorem isOpen_iff (hs : s.WellFormed) (hle : s.sequence ≤ maxSequence) :
    s.IsOpen ↔ ∀ id r, s.winning? id = some r → r.sequence ≠ maxSequence := by
  have hceiling : s.ceiling = maxSequence := Int.max_eq_left hle
  constructor
  · intro h id r hr
    have hmem := hs.mem_latest.mpr (by rwa [hs.winning_docId hr])
    have := h r hmem
    omega
  · intro h r hr
    have hwin := hs.mem_latest.mp hr
    have hne := h r.docId r hwin
    have := (hs.winning_bounded hwin).2
    omega

theorem filter_latest_split (hs : s.WellFormed) (hgoes : s.GoesOnAfter since)
    (hl : (s.changesSince since limit).getLast? = some last) :
    s.latest.filter (since < ·.sequence) =
      s.changesSince since limit ++ s.latest.filter (last.sequence < ·.sequence) := by
  have hlast := hs.lt_of_mem_changesSince hgoes (List.mem_of_getLast? hl)
  have hsplit := List.take_append_drop limit (s.latest.filter (since < ·.sequence))
  have hasc : (s.latest.filter (since < ·.sequence)).Pairwise (·.sequence < ·.sequence) := hs.latest_ascending.filter _
  rw [← hs.changesSince_eq_take hgoes] at hsplit
  rw [← hsplit] at hasc
  have hmem := List.mem_of_getLast? hl
  have hbefore : (s.changesSince since limit).filter (last.sequence < ·.sequence) = [] := by
    rw [List.filter_eq_nil_iff]
    intro r hr
    have := sequence_le_getLast (hs.changesSince_ascending since limit) hl hr
    simpa using this
  have hbehind : ((s.latest.filter (since < ·.sequence)).drop limit).filter (last.sequence < ·.sequence) =
      (s.latest.filter (since < ·.sequence)).drop limit := by
    rw [List.filter_eq_self]
    intro r hr
    simpa using (List.pairwise_append.mp hasc).2.2 last hmem r hr
  have hnarrow : s.latest.filter (last.sequence < ·.sequence) =
      (s.latest.filter (since < ·.sequence)).filter (last.sequence < ·.sequence) := by
    rw [List.filter_filter]
    refine List.filter_congr fun r _ => ?_
    by_cases h : last.sequence < r.sequence
    · have : since < r.sequence := by omega
      simp [h, this]
    · simp [h]
  calc s.latest.filter (since < ·.sequence)
      = s.changesSince since limit ++ (s.latest.filter (since < ·.sequence)).drop limit := hsplit.symm
    _ = s.changesSince since limit ++ (s.changesSince since limit ++
          (s.latest.filter (since < ·.sequence)).drop limit).filter (last.sequence < ·.sequence) := by
        rw [List.filter_append, hbefore, List.nil_append, hbehind]
    _ = s.changesSince since limit ++ s.latest.filter (last.sequence < ·.sequence) := by rw [hsplit, hnarrow]

theorem filter_latest_of_empty (hs : s.WellFormed) (hgoes : s.GoesOnAfter since) (hpos : 0 < limit)
    (h : s.changesSince since limit = []) : s.latest.filter (since < ·.sequence) = [] := by
  rw [hs.changesSince_eq_take hgoes, List.take_eq_nil_iff] at h
  exact h.resolve_left (by omega)

theorem changesSince_of_short (hs : s.WellFormed) (hgoes : s.GoesOnAfter since)
    (h : (s.changesSince since limit).length < limit) :
    s.changesSince since limit = s.latest.filter (since < ·.sequence) := by
  rw [hs.changesSince_eq_take hgoes, List.length_take] at h
  rw [hs.changesSince_eq_take hgoes]
  exact List.take_of_length_le (by omega)

theorem exists_paged (hs : s.WellFormed) (hopen : s.IsOpen) (limit : Nat) (since : Int) :
    ∃ pages, s.Paged limit since pages := by
  -- what is left to read gets shorter with every page
  induction hn : (s.latest.filter (since < ·.sequence)).length using Nat.strongRecOn generalizing since with
  | ind n ih =>
    cases hl : (s.changesSince since limit).getLast? with
    | none => exact ⟨[], .done (List.getLast?_eq_none_iff.mp hl)⟩
    | some last =>
      have hsplit := congrArg List.length (hs.filter_latest_split (hopen.goesOnAfter since) hl)
      have hpage := List.length_pos_of_mem (List.mem_of_getLast? hl)
      rw [List.length_append] at hsplit
      obtain ⟨rest, hrest⟩ := ih _ (by omega) last.sequence rfl
      exact ⟨_, .more hl hrest⟩

/-- A change at the last sequence is given again, and alone. -/
theorem changesSince_eq_singleton (hs : s.WellFormed) (hpos : 0 < limit) (hr : s.winning? r.docId = some r)
    (hlast : s.ceiling ≤ r.sequence) (hsince : s.ceiling ≤ since) : s.changesSince since limit = [r] := by
  have hstart : min (since + 1) s.ceiling = s.ceiling := by omega
  have hmem : r ∈ s.latest.filter (s.ceiling ≤ ·.sequence) :=
    List.mem_filter.mpr ⟨hs.mem_latest.mpr hr, decide_eq_true hlast⟩
  have hasc : (s.latest.filter (s.ceiling ≤ ·.sequence)).Pairwise (·.sequence < ·.sequence) :=
    hs.latest_ascending.filter _
  have hat : ∀ q ∈ s.latest.filter (s.ceiling ≤ ·.sequence), q.sequence = s.ceiling := by
    intro q hq
    obtain ⟨hq, hle⟩ := List.mem_filter.mp hq
    have hbound := (hs.winning_bounded (hs.mem_latest.mp hq)).2
    have hceiling : s.sequence ≤ s.ceiling := Int.le_max_right _ _
    have := of_decide_eq_true hle
    omega
  rw [hs.changesSince_eq_take_from, hstart]
  rcases hfilter : s.latest.filter (s.ceiling ≤ ·.sequence) with _ | ⟨first, rest⟩
  · simp [hfilter] at hmem
  · rw [hfilter] at hmem hasc hat
    have hnone : rest = [] := by
      rw [List.eq_nil_iff_forall_not_mem]
      intro q hq
      have hlt := List.rel_of_pairwise_cons hasc hq
      rw [hat first List.mem_cons_self, hat q (List.mem_cons_of_mem _ hq)] at hlt
      exact Int.lt_irrefl _ hlt
    subst hnone
    rw [hfilter, List.mem_singleton.mp hmem]
    exact List.take_of_length_le hpos

end WellFormed

namespace Paged

theorem isOpen (h : s.Paged limit since pages) (hs : s.WellFormed) (hpos : 0 < limit) : s.IsOpen := by
  induction h with
  | @done since hempty =>
    intro r hr
    rw [hs.changesSince_eq_take_from, List.take_eq_nil_iff, List.filter_eq_nil_iff] at hempty
    have hnone := hempty.resolve_left (by omega) r hr
    rw [decide_eq_true_iff] at hnone
    omega
  | more _ _ ih => exact ih

theorem flatten_eq (h : s.Paged limit since pages) (hs : s.WellFormed) (hpos : 0 < limit) :
    pages.flatten = s.latest.filter (since < ·.sequence) := by
  have hgoes := (h.isOpen hs hpos).goesOnAfter
  induction h with
  | done hempty => exact (hs.filter_latest_of_empty (hgoes _) hpos hempty).symm
  | more hl _ ih => rw [List.flatten_cons, ih, ← hs.filter_latest_split (hgoes _) hl]

theorem ascending (h : s.Paged limit since pages) (hs : s.WellFormed) (hpos : 0 < limit) :
    pages.flatten.Pairwise (·.sequence < ·.sequence) := by
  rw [h.flatten_eq hs hpos]
  exact hs.latest_ascending.filter _

theorem mem_flatten (h : s.Paged limit since pages) (hs : s.WellFormed) (hpos : 0 < limit) :
    r ∈ pages.flatten ↔ s.winning? r.docId = some r ∧ since < r.sequence := by
  rw [h.flatten_eq hs hpos, List.mem_filter, hs.mem_latest, decide_eq_true_iff]

theorem docIds_nodup (h : s.Paged limit since pages) (hs : s.WellFormed) (hpos : 0 < limit) :
    (pages.flatten.map (·.docId)).Nodup :=
  WellFormed.docIds_nodup (fun _ hr => ((h.mem_flatten hs hpos).mp hr).1) (h.ascending hs hpos)

theorem last_of_short (h : s.Paged limit since pages) (hs : s.WellFormed) {front rest : List (List Revision)}
    {page : List Revision} (heq : pages = front ++ page :: rest) (hshort : page.length < limit) : rest = [] := by
  have hgoes := (h.isOpen hs (by omega)).goesOnAfter
  induction h generalizing front with
  | done _ => simp at heq
  | @more since last later hl hlater ih =>
    cases front with
    | cons first front => exact ih (List.cons.inj heq).2
    | nil =>
      obtain ⟨rfl, rfl⟩ := List.cons.inj heq
      have hsplit := hs.filter_latest_split (hgoes since) hl
      rw [← hs.changesSince_of_short (hgoes since) hshort] at hsplit
      have hnone := List.append_cancel_left ((List.append_nil _).trans hsplit)
      have hempty : s.changesSince last.sequence limit = [] := by
        rw [hs.changesSince_eq_take (hgoes _), ← hnone, List.take_nil]
      exact (Paged.done hempty).unique hlater

end Paged

/-- Whatever requests a store has served, its feed lists exactly the latest revision of every document, all sequences
lie between 1 and the present one, and this is moved by one by every revision that is written and by nothing else. A
reader of the feed comes to an end, unless a document was changed last at the very last sequence, `2 ^ 63 - 1`; then
the reader is given this change for ever. The pages have every latest revision after the start once, in ascending
order, and one that is not full is the last. -/
theorem after_paged (requests : List Request) (since : Int) {limit : Nat} (hpos : 0 < limit)
    (hfew : (written {} requests).length < 2 ^ 63) :
    let s := after {} requests
    (s.feed.Pairwise (·.1 < ·.1) ∧
      ∀ seq id, (seq, id) ∈ s.feed ↔ ∃ r, s.winning? id = some r ∧ r.docId = id ∧ r.sequence = seq) ∧
    (∀ id, ∀ r ∈ s.history id, 1 ≤ r.sequence ∧ r.sequence ≤ s.sequence) ∧
    s.sequence = (written {} requests).length ∧
    (∀ q, match s.serve q with
      | (.written r, t) => t.sequence = s.sequence + 1 ∧ r.sequence = t.sequence
      | (.purged _, t) => t.sequence = s.sequence
      | (.refused _, t) => t = s) ∧
    ((written {} requests).length < 2 ^ 63 - 1 → ∃ pages, s.Paged limit since pages) ∧
    ((∃ pages, s.Paged limit since pages) ↔ ∀ id r, s.winning? id = some r → r.sequence ≠ 2 ^ 63 - 1) ∧
    (∀ id r, s.winning? id = some r → r.sequence = 2 ^ 63 - 1 → s.changesSince r.sequence limit = [r]) ∧
    ∀ pages, s.Paged limit since pages → (∀ others, s.Paged limit since others → others = pages) ∧
      pages.flatten.Pairwise (·.sequence < ·.sequence) ∧ (pages.flatten.map (·.docId)).Nodup ∧
      (∀ id r, r ∈ pages.flatten ∧ r.docId = id ↔ s.winning? id = some r ∧ since < r.sequence) ∧
      ∀ front page rest, pages = front ++ page :: rest → page.length < limit → rest = [] := by
  have hs := WellFormed.empty.after requests
  have hsequence : (after {} requests).sequence = (written {} requests).length := by
    rw [sequence_after]
    exact Int.zero_add _
  dsimp only
  generalize after {} requests = s at hs hsequence ⊢
  have hmax : (2 ^ 63 - 1 : Int) = maxSequence := by decide
  have hle : s.sequence ≤ maxSequence := by omega
  have hceiling : s.ceiling = maxSequence := Int.max_eq_left hle
  have hends : (∃ pages, s.Paged limit since pages) ↔ s.IsOpen :=
    ⟨fun ⟨_, hpages⟩ => hpages.isOpen hs hpos, fun hopen => hs.exists_paged hopen limit since⟩
  rw [hends, hmax]
  refine ⟨⟨hs.feed_ascending, fun seq id => ?_⟩, hs.bounded, hsequence, s.serve_sequence,
    fun hfewer => hs.isOpen (by omega), hs.isOpen_iff hle, fun id r hr hlast => ?_,
    fun pages hpages => ⟨fun _ => hpages.unique, hpages.ascending hs hpos, hpages.docIds_nodup hs hpos,
      fun id r => ?_, fun _ _ _ => hpages.last_of_short hs⟩⟩
  · rw [hs.mem_feed]
    exact exists_congr fun r => and_congr_right fun hr => (and_iff_right (hs.winning_docId hr)).symm
  · rw [hs.changesSince_eq_singleton hpos (by rwa [hs.winning_docId hr]) (by omega) (by omega)]
  · rw [hpages.mem_flatten hs hpos]
    constructor
    · rintro ⟨h, rfl⟩
      exact h
    · intro h
      rw [hs.winning_docId h.1]
      exact ⟨h, rfl⟩

/-- The tombstone of the document that was written first comes last, on a page of its own. -/
theorem after_paged_tombstone :
    0 < 1 ∧ (written {} [.create "ann" [], .create "bob" [], .delete "ann" "1-000001", .purge "eve"]).length < 2 ^ 63 ∧
    ∃ pages,
      (after {} [.create "ann" [], .create "bob" [], .delete "ann" "1-000001", .purge "eve"]).Paged 1 0 pages ∧
      pages.flatten.map (fun r => (r.docId, r.sequence, r.deleted)) = [("bob", 2, false), ("ann", 3, true)] := by
  have hfew : (written {} [.create "ann" [], .create "bob" [], .delete "ann" "1-000001", .purge "eve"]).length < 2 ^ 63 :=
    by decide
  obtain ⟨_, _, _, _, hexists, _, _, hpaged⟩ := @after_paged
    [.create "ann" [], .create "bob" [], .delete "ann" "1-000001", .purge "eve"] 0 1 Nat.one_pos hfew
  obtain ⟨pages, hpages⟩ := hexists (by decide)
  refine ⟨Nat.one_pos, hfew, pages, hpages, ?_⟩
  rw [← (hpaged pages hpages).1 _ (.more rfl (.more rfl (.done rfl)))]
  rfl

/-- Create a document and purge it so many times, and create it once more. -/
def recreations (n : Nat) : List Request :=
  (List.replicate n [.create "ann" [], .purge "ann"]).flatten ++ [.create "ann" []]

theorem after_created_purged (n : Int) :
    ({ sequence := n } : Store).after [.create "ann" [], .purge "ann"] = { sequence := n + 1 } := by
  have hcreated : (({ sequence := n } : Store).serve (.create "ann" [])).2 =
      (({ sequence := n } : Store).record "ann" 1 false []).2 := rfl
  rw [after, List.foldl_cons, hcreated]
  simp [serve, purge, record, winning?, history, appendTo]

theorem after_replicate (n : Nat) (k : Int) :
    ({ sequence := k } : Store).after (List.replicate n [.create "ann" [], .purge "ann"]).flatten =
      { sequence := k + n } := by
  induction n generalizing k with
  | zero => simp [after]
  | succ n ih =>
    rw [List.replicate_succ, List.flatten_cons, after_append, after_created_purged, ih]
    simp only [Store.mk.injEq, true_and]
    omega

theorem winning_recreations (n : Nat) :
    (after {} (recreations n)).sequence = n + 1 ∧
      ∃ r, (after {} (recreations n)).winning? "ann" = some r ∧ r.sequence = n + 1 := by
  have hbegun := after_replicate n 0
  rw [Int.zero_add] at hbegun
  rw [recreations, after_append, hbegun]
  exact ⟨rfl, _, rfl, rfl⟩

/-- Fewer than `2 ^ 63` revisions are not few enough: the last sequence but one can be passed, not the last. -/
theorem not_after_paged :
    (written {} (recreations (2 ^ 63 - 2))).length < 2 ^ 63 ∧
    ¬ ∃ pages, (after {} (recreations (2 ^ 63 - 2))).Paged 1 0 pages := by
  obtain ⟨hsequence, r, hr, hlast⟩ := winning_recreations (2 ^ 63 - 2)
  have hlength := sequence_after {} (recreations (2 ^ 63 - 2))
  have hs := WellFormed.empty.after (recreations (2 ^ 63 - 2))
  generalize recreations (2 ^ 63 - 2) = requests at *
  have hmax : ((2 ^ 63 - 2 : Nat) : Int) + 1 = maxSequence := by decide
  have hzero : ({} : Store).sequence = 0 := rfl
  refine ⟨by omega, fun ⟨pages, hpages⟩ => ?_⟩
  have hopen := hpages.isOpen hs Nat.one_pos
  exact (hs.isOpen_iff (by omega)).mp hopen "ann" r hr (by omega)

end Store

end DocIndex
