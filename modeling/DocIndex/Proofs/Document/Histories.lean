import DocIndex.Proofs.Document.Requests
import DocIndex.Proofs.Document.RevisionIds
import Mathlib.Data.List.Chain

/-! # Histories of documents

A history grows by one revision at a time. Each takes the generation after the one before it, and a tombstone is only
followed by a live revision. Writers who replace a revision name it. The first of them makes another one the latest, and
since no id is given twice, the others are refused.
-/

namespace DocIndex

/-- Revisions of one document, oldest first, each written on the one before it. -/
structure Lineage (revisions : List Revision) : Prop where
  ascending : revisions.Pairwise (·.sequence < ·.sequence)
  generations : revisions.map (·.generation?) = (List.range' 1 revisions.length).map some
  bodies : ∀ r ∈ revisions, r.deleted = true → r.body = []
  revived : revisions.IsChain fun r next => r.deleted = true → next.deleted = false

namespace Lineage

variable {revisions : List Revision} {r last : Revision}

theorem nil : Lineage [] := ⟨List.Pairwise.nil, rfl, nofun, List.isChain_nil⟩

theorem generation?_getLast (h : Lineage revisions) (hl : revisions.getLast? = some last) :
    last.generation? = some revisions.length := by
  obtain ⟨front, rfl⟩ := List.getLast?_eq_some_iff.mp hl
  have hgen := h.generations
  rw [List.length_append, List.length_singleton, List.range'_1_concat, List.map_append, List.map_append] at hgen
  have hlast := (List.append_inj' hgen rfl).2
  rw [List.length_append, List.length_singleton, Nat.add_comm]
  exact (List.cons.inj hlast).1

theorem concat (h : Lineage revisions) (hseq : ∀ q ∈ revisions, q.sequence < r.sequence)
    (hgen : r.generation? = some (revisions.length + 1)) (hbody : r.deleted = true → r.body = [])
    (hlive : ∀ last, revisions.getLast? = some last → last.deleted = true → r.deleted = false) :
    Lineage (revisions ++ [r]) where
  ascending := by
    refine List.pairwise_append.mpr ⟨h.ascending, List.pairwise_singleton _ _, fun q hq new hnew => ?_⟩
    rw [List.mem_singleton.mp hnew]
    exact hseq q hq
  generations := by
    rw [List.length_append, List.length_singleton, List.range'_1_concat, List.map_append, List.map_append,
      h.generations, List.map_singleton, List.map_singleton, hgen, Nat.add_comm]
  bodies := by
    intro q hq
    rcases List.mem_append.mp hq with hq | hq
    · exact h.bodies q hq
    · rw [List.mem_singleton.mp hq]
      exact hbody
  revived := by
    refine h.revived.append (List.isChain_singleton r) fun q hq new hnew => ?_
    rw [← Option.some.inj hnew]
    exact hlive q hq

end Lineage

namespace Store

/-- Every document has one entry, which is not empty, and its revisions were written one on the other. -/
structure Lineal (s : Store) : Prop where
  keys_nodup : (s.histories.map (·.1)).Nodup
  nonempty : ∀ e ∈ s.histories, e.2 ≠ []
  lineage : ∀ id, Lineage (s.history id)

variable {s t : Store} {q : Request} {r : Revision} {id docId revId : String} {requests : List Request}

/-! ## Entries of the histories -/

theorem keys_appendTo (r : Revision) (hs : List (String × List Revision)) :
    (appendTo r hs).map (·.1) =
      if r.docId ∈ hs.map (·.1) then hs.map (·.1) else hs.map (·.1) ++ [r.docId] := by
  induction hs with
  | nil => rfl
  | cons e rest ih =>
    by_cases he : e.1 = r.docId
    · simp [appendTo, he]
    · have hne : ¬ r.docId = e.1 := fun h => he h.symm
      rw [appendTo, if_neg he, List.map_cons, ih, List.map_cons]
      by_cases hmem : r.docId ∈ rest.map (·.1)
      · rw [if_pos hmem, if_pos (List.mem_cons_of_mem _ hmem)]
      · rw [if_neg hmem, if_neg fun h => (List.mem_cons.mp h).elim hne hmem]
        rfl

theorem appendTo_nonempty (r : Revision) {hs : List (String × List Revision)} (h : ∀ e ∈ hs, e.2 ≠ []) :
    ∀ e ∈ appendTo r hs, e.2 ≠ [] := by
  induction hs with
  | nil => simp [appendTo]
  | cons first rest ih =>
    obtain ⟨hfirst, hrest⟩ := List.forall_mem_cons.mp h
    unfold appendTo
    split
    · exact List.forall_mem_cons.mpr ⟨by simp, hrest⟩
    · exact List.forall_mem_cons.mpr ⟨hfirst, ih hrest⟩

theorem purge_histories_sublist (s : Store) (docId : String) :
    List.Sublist (s.purge docId).2.histories s.histories := by
  unfold purge
  cases s.histories.find? (·.1 == docId) with
  | none => exact List.Sublist.refl _
  | some h => exact List.filter_sublist

theorem length_le_of_ascending {revisions : List Revision} {low high : Int} (hle : low ≤ high)
    (hasc : revisions.Pairwise (·.sequence < ·.sequence))
    (hbound : ∀ r ∈ revisions, low < r.sequence ∧ r.sequence ≤ high) : low + revisions.length ≤ high := by
  induction revisions generalizing low with
  | nil => simpa using hle
  | cons r rest ih =>
    obtain ⟨hr, hrest⟩ := List.pairwise_cons.mp hasc
    obtain ⟨hfirst, hlater⟩ := List.forall_mem_cons.mp hbound
    have := ih hfirst.2 hrest fun q hq => ⟨hr q hq, (hlater q hq).2⟩
    rw [List.length_cons]
    omega

theorem WellFormed.length_history_le (hs : s.WellFormed) (id : String) : (s.history id).length ≤ s.sequence := by
  have := length_le_of_ascending hs.nonneg (hs.ascending id) (hs.bounded id)
  omega

namespace Lineal

theorem empty : Lineal {} := ⟨List.nodup_nil, nofun, fun _ => .nil⟩

theorem history_eq (h : s.Lineal) {revisions : List Revision} (hmem : (id, revisions) ∈ s.histories) :
    s.history id = revisions := by
  have hfind : s.histories.find? (·.1 == id) = some (id, revisions) :=
    find?_key hmem fun e he hkey => List.inj_on_of_nodup_map h.keys_nodup he hmem hkey
  rw [history, hfind]

theorem generation_eq (h : s.Lineal) {g : Nat} {deleted : Bool} {body : Object}
    (hc : s.Continues docId g deleted body) : g = (s.history docId).length + 1 := by
  cases hw : s.winning? docId with
  | none =>
    have hnone : s.history docId = [] := List.getLast?_eq_none_iff.mp hw
    rw [(hc.first hw).1, hnone]
    rfl
  | some current => rw [(hc.next current hw).1, (h.lineage docId).generation?_getLast hw, Option.getD_some]

theorem record (h : s.Lineal) (hs : s.WellFormed) (hbound : s.sequence < Nat.pow 2 63) {g : Nat} {deleted : Bool}
    {body : Object} (hc : s.Continues docId g deleted body) : (s.record docId g deleted body).2.Lineal where
  keys_nodup := by
    show ((appendTo _ s.histories).map (·.1)).Nodup
    rw [keys_appendTo]
    split
    · exact h.keys_nodup
    · rename_i hnew
      exact List.nodup_append.mpr ⟨h.keys_nodup, List.nodup_singleton _, fun key hkey key' hkey' heq =>
        hnew (List.mem_singleton.mp hkey' ▸ heq ▸ hkey)⟩
  nonempty := appendTo_nonempty _ h.nonempty
  lineage := by
    intro id
    rw [history_record]
    split
    · rename_i hid
      subst hid
      have hg := h.generation_eq hc
      have hlength := hs.length_history_le id
      refine (h.lineage id).concat (fun q hq => ?_) ?_ hc.body_eq fun last hl => (hc.next last hl).2
      · exact Int.lt_add_one_of_le (hs.bounded id q hq).2
      · rw [← hg]
        exact Revision.generationOf?_makeId (Nat.lt_of_le_of_lt (by omega : g ≤ Nat.pow 2 63) (by decide)) _
    · exact h.lineage id

theorem purge (h : s.Lineal) (docId : String) : (s.purge docId).2.Lineal where
  keys_nodup := h.keys_nodup.sublist ((purge_histories_sublist s docId).map _)
  nonempty := fun e he => h.nonempty e ((purge_histories_sublist s docId).subset he)
  lineage := by
    intro id
    rw [history_purge]
    split
    · exact .nil
    · exact h.lineage id

theorem serve (h : s.Lineal) (hs : s.WellFormed) (hbound : s.sequence < Nat.pow 2 63) (q : Request) :
    (s.serve q).2.Lineal := by
  rcases serve_cases s q with ⟨docId, _, hq⟩ | ⟨e, hq⟩ | ⟨docId, g, deleted, body, hc, hq⟩ <;> rw [hq]
  · exact h.purge docId
  · exact h
  · exact h.record hs hbound hc

theorem after (h : s.Lineal) (hs : s.WellFormed) (hbound : (s.after requests).sequence < Nat.pow 2 63) :
    (s.after requests).Lineal := by
  induction requests generalizing s with
  | nil => exact h
  | cons q rest ih =>
    have hle := (precedes_after s (q :: rest)).sequence_le
    exact ih (h.serve hs (by omega) q) (hs.serve q) hbound

end Lineal

/-! ## Requests that name a revision -/

/-- The document and the revision that a request is to replace. -/
def Request.replaces? : Request → Option (String × String)
  | .update docId revId _ => some (docId, revId)
  | .delete docId revId => some (docId, revId)
  | _ => none

/-- What is wrong with a request in whatever store it is made. -/
def Request.check : Request → Except StoreError Unit
  | .create docId body => validate docId body
  | .update docId _ body => validate docId body
  | _ => .ok ()

/-- The replies that tell that a revision of a document was replaced, with their requests. -/
def replacing (docId revId : String) (entries : List (Request × Reply)) : List (Request × Reply) :=
  entries.filter fun e => e.1.replaces? == some (docId, revId) && e.2.revision?.isSome

theorem eq_ok_of_replyTo {result : Except StoreError (Revision × Store)}
    (h : s.replyTo result = (.written r, t)) : result = .ok (r, t) := by
  cases result with
  | error e => cases h
  | ok p =>
    obtain ⟨hr, ht⟩ := Prod.mk.inj h
    rw [← Reply.written.inj hr, ← ht]

theorem serve_of_replaces (s : Store) (hq : q.replaces? = some (docId, revId)) :
    ∃ deleted body, s.serve q = s.replyTo (q.check >>= fun _ =>
      s.currentGeneration docId revId >>= fun g => .ok (s.record docId (g + 1) deleted body)) := by
  cases q with
  | create _ _ => cases hq
  | purge _ => cases hq
  | update id rev body =>
    obtain ⟨rfl, rfl⟩ := Prod.mk.inj (Option.some.inj hq)
    exact ⟨false, body, rfl⟩
  | delete id rev =>
    obtain ⟨rfl, rfl⟩ := Prod.mk.inj (Option.some.inj hq)
    exact ⟨true, [], rfl⟩

theorem winning?_of_replaced (h : s.serve q = (.written r, t)) (hq : q.replaces? = some (docId, revId)) :
    r.docId = docId ∧ q.check = .ok () ∧
      ∃ current, s.winning? docId = some current ∧ current.revId = revId ∧ current.deleted = false := by
  obtain ⟨deleted, body, hserve⟩ := serve_of_replaces s hq
  obtain ⟨_, hcheck, hok⟩ := ok_of_bind (eq_ok_of_replyTo (hserve.symm.trans h))
  obtain ⟨g, hg, hok⟩ := ok_of_bind hok
  obtain ⟨current, hw, hrev, hlive, _⟩ := currentGeneration_ok hg
  exact ⟨congrArg (·.1.docId) (Except.ok.inj hok).symm, hcheck, current, hw, hrev, hlive⟩

theorem currentGeneration_of_live {current : Revision} (hw : s.winning? docId = some current)
    (hlive : current.deleted = false) :
    s.currentGeneration docId current.revId = .ok (current.generation?.getD 0) := by
  rw [currentGeneration, hw]
  simp [hlive]

/-- A request replaces the latest revision if this is live and is the one it names, and nothing is wrong with it. -/
theorem written_iff (hq : q.replaces? = some (docId, revId)) :
    (∃ r t, s.serve q = (.written r, t)) ↔
      q.check = .ok () ∧
        ∃ current, s.winning? docId = some current ∧ current.revId = revId ∧ current.deleted = false := by
  constructor
  · rintro ⟨r, t, h⟩
    exact (winning?_of_replaced h hq).2
  · rintro ⟨hcheck, current, hw, rfl, hlive⟩
    obtain ⟨deleted, body, hserve⟩ := serve_of_replaces s hq
    rw [hserve, hcheck, currentGeneration_of_live hw hlive]
    exact ⟨_, _, rfl⟩

theorem Precedes.winning_after (h : s.Precedes t) {seq : Int} (hseq : seq ≤ s.sequence)
    (hs : ∀ r, s.winning? id = some r → seq < r.sequence) (r : Revision) (hr : t.winning? id = some r) :
    seq < r.sequence := by
  by_cases hle : r.sequence ≤ s.sequence
  · exact hs r (h.winning_of_le id r hr hle)
  · omega

theorem replacing_cons (docId revId : String) (s : Store) (q : Request) (rest : List Request) :
    replacing docId revId (s.served (q :: rest)) = replacing docId revId ((s.serve q).2.served rest) ∨
    ∃ r, q.replaces? = some (docId, revId) ∧ s.serve q = (.written r, (s.serve q).2) ∧
      replacing docId revId (s.served (q :: rest)) =
        (q, .written r) :: replacing docId revId ((s.serve q).2.served rest) := by
  unfold replacing
  rw [served, List.filter_cons]
  split
  · rename_i h
    obtain ⟨hq, hreply⟩ := Bool.and_eq_true_iff.mp h
    obtain ⟨r, hr⟩ := Option.isSome_iff_exists.mp hreply
    have hwritten : (s.serve q).1 = .written r := Reply.revision?_eq_some.mp hr
    exact Or.inr ⟨r, eq_of_beq hq, Prod.ext hwritten rfl, by rw [hwritten]⟩
  · exact Or.inl rfl

theorem replacing_of_passed (hs : s.WellFormed) {g : Nat} {seq : Int} (hpos : 0 ≤ seq) (hseq : seq ≤ s.sequence)
    (hpassed : ∀ r, s.winning? docId = some r → seq < r.sequence) (requests : List Request) :
    replacing docId (Revision.makeId g seq) (s.served requests) = [] := by
  induction requests generalizing s with
  | nil => rfl
  | cons q rest ih =>
    have hle := (precedes_serve s q).sequence_le
    have hrest := ih (hs.serve q) (by omega) ((precedes_serve s q).winning_after hseq hpassed)
    rcases replacing_cons docId (Revision.makeId g seq) s q rest with h | ⟨r, hq, hwritten, _⟩
    · rw [h, hrest]
    · obtain ⟨_, _, current, hw, hrev, _⟩ := winning?_of_replaced hwritten hq
      obtain ⟨g', hg'⟩ := hs.revId_eq docId current (mem_history_of_winning? hw)
      have hlater := hpassed current hw
      have hsame := Revision.sequence_eq_of_makeId hpos (by omega) (hrev.symm.trans hg')
      omega

theorem WellFormed.replacing_length_le (hs : s.WellFormed) (docId revId : String) (requests : List Request) :
    (replacing docId revId (s.served requests)).length ≤ 1 := by
  induction requests generalizing s with
  | nil => exact Nat.zero_le 1
  | cons q rest ih =>
    rcases replacing_cons docId revId s q rest with h | ⟨r, hq, hwritten, h⟩
    · rw [h]
      exact ih (hs.serve q)
    · obtain ⟨rfl, _, current, hw, rfl, _⟩ := winning?_of_replaced hwritten hq
      obtain ⟨g, hg⟩ := hs.revId_eq _ current (mem_history_of_winning? hw)
      obtain ⟨hnext, hr, hwr, _⟩ := sequence_of_written hwritten
      have hbounded := hs.winning_bounded hw
      have hpassed : ∀ latest, (s.serve q).2.winning? r.docId = some latest → current.sequence < latest.sequence := by
        intro latest hl
        obtain rfl := Option.some.inj (hwr.symm.trans hl)
        omega
      rw [h, hg, replacing_of_passed (hs.serve q) (by omega) (by omega) hpassed]
      exact Nat.le_refl 1

/-! ## Reading a revision -/

theorem revision?_serve (hq : q ≠ .purge id) (h : s.revision? id revId = some r) :
    (s.serve q).2.revision? id revId = some r := by
  rcases serve_cases s q with ⟨docId, rfl, hs⟩ | ⟨e, hs⟩ | ⟨docId, g, deleted, body, _, hs⟩ <;> rw [hs]
  · have hne : id ≠ docId := by
      rintro rfl
      exact hq rfl
    rw [revision?, history_purge, if_neg hne]
    exact h
  · exact h
  · rw [revision?, history_record]
    split
    · rw [revision?] at h
      rw [List.find?_append, h]
      rfl
    · exact h

theorem revision?_after (hpurge : ∀ q ∈ requests, q ≠ .purge id) (h : s.revision? id revId = some r) :
    (s.after requests).revision? id revId = some r := by
  induction requests generalizing s with
  | nil => exact h
  | cons q rest ih =>
    obtain ⟨hq, hrest⟩ := List.forall_mem_cons.mp hpurge
    exact ih hrest (revision?_serve hq h)

theorem written_revIds_nodup (hs : s.WellFormed) (requests : List Request) :
    ((s.written requests).map (·.revId)).Nodup := by
  obtain ⟨hasc, hwritten⟩ := written_ascending s requests
  have hnonneg := hs.nonneg
  rw [List.nodup_iff_pairwise_ne, List.pairwise_map]
  refine hasc.imp_of_mem fun {a b} ha hb hlt heq => ?_
  obtain ⟨hseqa, g, hg⟩ := hwritten a ha
  obtain ⟨hseqb, g', hg'⟩ := hwritten b hb
  rw [hg, hg'] at heq
  have hsame := Revision.sequence_eq_of_makeId (by omega) (by omega) heq
  omega

/-- Whatever fewer than 2^63 revisions requests have written, in whatever order competing writers were served: every
document has one history, which is not empty, of generations 1, 2, 3 and so on, and its tombstones are empty and are
followed by live revisions. No id is given twice. At most one request replaces a revision, and it does so if and only if
this is the latest one, live, and nothing is wrong with the request. A refused request changes nothing. A written
revision can be read until its document is purged. -/
theorem after_lineal (requests : List Request) (hbound : (written {} requests).length < Nat.pow 2 63) :
    let s := after {} requests
    ((s.histories.map (·.1)).Nodup ∧
      ∀ id revisions, (id, revisions) ∈ s.histories →
        revisions ≠ [] ∧ s.history id = revisions ∧ (∀ r ∈ revisions, r.docId = id) ∧ Lineage revisions) ∧
    ((written {} requests).map (·.revId)).Nodup ∧
    (∀ docId revId, (replacing docId revId (served {} requests)).length ≤ 1) ∧
    (∀ q docId revId, q.replaces? = some (docId, revId) →
      ((∃ r t, s.serve q = (.written r, t)) ↔ q.check = .ok () ∧
        ∃ current, s.winning? docId = some current ∧ current.revId = revId ∧ current.deleted = false)) ∧
    (∀ q e t, s.serve q = (.refused e, t) → t = s) ∧
    ∀ before q later r, requests = before ++ q :: later → ((after {} before).serve q).1 = .written r →
      (∀ p ∈ later, p ≠ .purge r.docId) → s.revision? r.docId r.revId = some r := by
  have hsequence : (after {} requests).sequence = (written {} requests).length := by
    rw [sequence_after]
    exact Int.zero_add _
  have hs := WellFormed.empty.after requests
  have hl : (after {} requests).Lineal := Lineal.empty.after .empty (by omega)
  refine ⟨⟨hl.keys_nodup, fun id revisions hmem => ?_⟩, written_revIds_nodup .empty requests,
    fun docId revId => WellFormed.empty.replacing_length_le docId revId requests, fun _ _ _ hq => written_iff hq,
    fun _ _ _ h => eq_of_refused h, ?_⟩
  · have hhistory := hl.history_eq hmem
    exact ⟨hl.nonempty _ hmem, hhistory, hhistory ▸ hs.docId_eq id, hhistory ▸ hl.lineage id⟩
  · rintro before q later r rfl hreply hkept
    have hwritten : (after {} before).serve q = (.written r, ((after {} before).serve q).2) := by rw [← hreply]
    have hread := ((WellFormed.empty.after before).serve q).revision?_winning (sequence_of_written hwritten).2.2.1
    have hlast : (((after {} before).serve q).2.after later).revision? r.docId r.revId = some r :=
      revision?_after hkept hread
    rw [after_append]
    exact hlast

/-- Of an update and two deletions of one revision only the first is done, and what it wrote is read after the document
was deleted and made again. -/
theorem after_lineal_crossed :
    (written {} [.create "ann" [], .update "ann" "1-000001" [("n", .null)], .delete "ann" "1-000001",
      .delete "ann" "1-000001", .delete "ann" "2-000002", .create "ann" []]).length < Nat.pow 2 63 ∧
    (after {} [.create "ann" [], .update "ann" "1-000001" [("n", .null)], .delete "ann" "1-000001",
      .delete "ann" "1-000001", .delete "ann" "2-000002", .create "ann" []]).revision? "ann" "2-000002" =
        some { docId := "ann", revId := "2-000002", sequence := 2, body := [("n", .null)] } := by
  refine ⟨by decide, ?_⟩
  exact (after_lineal
    [.create "ann" [], .update "ann" "1-000001" [("n", .null)], .delete "ann" "1-000001", .delete "ann" "1-000001",
      .delete "ann" "2-000002", .create "ann" []] (by decide)).2.2.2.2.2
    [.create "ann" []] (.update "ann" "1-000001" [("n", .null)]) _ _ rfl rfl (by simp)

end Store

end DocIndex
