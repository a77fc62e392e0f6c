import DocIndex.Document.Requests
import DocIndex.Proofs.Document.Feed

/-! # What requests do to a store

A store that requests lead to is well formed, and its sequence tells how many revisions they have written.
-/

namespace DocIndex

namespace Store

variable {s t : Store} {q : Request} {r : Revision} {requests : List Request}

theorem Reply.revision?_eq_some {reply : Reply} : reply.revision? = some r ↔ reply = .written r := by
  cases reply <;> simp [Reply.revision?]

/-! ## One request -/

theorem serve_cases (s : Store) (q : Request) :
    (∃ docId, q = .purge docId ∧ s.serve q = (.purged (s.purge docId).1, (s.purge docId).2)) ∨
    (∃ e, s.serve q = (.refused e, s)) ∨
    ∃ docId g deleted body, s.Continues docId g deleted body ∧
      s.serve q = (.written (s.record docId g deleted body).1, (s.record docId g deleted body).2) := by
  have hwrite : ∀ result : Except StoreError (Revision × Store),
      (∀ r t, result = .ok (r, t) → ∃ docId g deleted body,
        (r, t) = s.record docId g deleted body ∧ s.Continues docId g deleted body) →
      (∃ e, s.replyTo result = (.refused e, s)) ∨ ∃ docId g deleted body, s.Continues docId g deleted body ∧
        s.replyTo result = (.written (s.record docId g deleted body).1, (s.record docId g deleted body).2) := by
    intro result hr
    cases result with
    | error e => exact Or.inl ⟨e, rfl⟩
    | ok p =>
      obtain ⟨docId, g, deleted, body, heq, hcontinues⟩ := hr p.1 p.2 rfl
      refine Or.inr ⟨docId, g, deleted, body, hcontinues, ?_⟩
      rw [← heq]
      rfl
  cases q with
  | create docId body =>
    refine Or.inr (hwrite _ fun r t hr => ?_)
    obtain ⟨g, hg⟩ := eq_record_of_create hr
    exact ⟨docId, g, false, body, hg⟩
  | update docId revId body =>
    refine Or.inr (hwrite _ fun r t hr => ?_)
    obtain ⟨g, hg⟩ := eq_record_of_update hr
    exact ⟨docId, g, false, body, hg⟩
  | delete docId revId =>
    refine Or.inr (hwrite _ fun r t hr => ?_)
    obtain ⟨g, hg⟩ := eq_record_of_delete hr
    exact ⟨docId, g, true, [], hg⟩
  | purge docId => exact Or.inl ⟨docId, rfl, rfl⟩

theorem WellFormed.serve (hs : s.WellFormed) (q : Request) : (s.serve q).2.WellFormed := by
  rcases serve_cases s q with ⟨docId, _, h⟩ | ⟨e, h⟩ | ⟨docId, g, deleted, body, _, h⟩ <;> rw [h]
  · exact hs.purge docId
  · exact hs
  · exact hs.record docId g deleted body

theorem precedes_serve (s : Store) (q : Request) : s.Precedes (s.serve q).2 := by
  rcases serve_cases s q with ⟨docId, _, h⟩ | ⟨e, h⟩ | ⟨docId, g, deleted, body, _, h⟩ <;> rw [h]
  · exact precedes_purge s docId
  · exact Precedes.refl s
  · exact precedes_record s docId g deleted body

theorem sequence_of_written (h : s.serve q = (.written r, t)) :
    t.sequence = s.sequence + 1 ∧ r.sequence = t.sequence ∧ t.winning? r.docId = some r ∧
      ∃ g, r.revId = Revision.makeId g r.sequence := by
  rcases serve_cases s q with ⟨docId, _, h'⟩ | ⟨e, h'⟩ | ⟨docId, g, deleted, body, _, h'⟩ <;> rw [h] at h'
  · cases h'
  · cases h'
  · obtain ⟨hr, rfl⟩ := Prod.mk.inj h'
    obtain rfl := Reply.written.inj hr
    exact ⟨rfl, rfl, (winning?_record s docId g deleted body docId).trans (if_pos rfl), g, rfl⟩

theorem sequence_of_purged {found : Bool} (h : s.serve q = (.purged found, t)) : t.sequence = s.sequence := by
  rcases serve_cases s q with ⟨docId, _, h'⟩ | ⟨e, h'⟩ | ⟨docId, g, deleted, body, _, h'⟩ <;> rw [h] at h'
  · rw [(Prod.mk.inj h').2]
    exact WellFormed.purge_sequence s docId
  · cases h'
  · cases h'

theorem eq_of_refused {e : StoreError} (h : s.serve q = (.refused e, t)) : t = s := by
  rcases serve_cases s q with ⟨docId, _, h'⟩ | ⟨e', h'⟩ | ⟨docId, g, deleted, body, _, h'⟩ <;> rw [h] at h'
  · cases h'
  · exact (Prod.mk.inj h').2
  · cases h'

theorem serve_sequence (s : Store) (q : Request) :
    match s.serve q with
    | (.written r, t) => t.sequence = s.sequence + 1 ∧ r.sequence = t.sequence
    | (.purged _, t) => t.sequence = s.sequence
    | (.refused _, t) => t = s := by
  rcases hq : s.serve q with ⟨reply, t⟩
  cases reply with
  | written r => exact ⟨(sequence_of_written hq).1, (sequence_of_written hq).2.1⟩
  | purged found => exact sequence_of_purged hq
  | refused e => exact eq_of_refused hq

/-! ## Runs of requests -/

theorem after_append (s : Store) (requests later : List Request) :
    s.after (requests ++ later) = (s.after requests).after later := List.foldl_append

theorem WellFormed.after (hs : s.WellFormed) (requests : List Request) : (s.after requests).WellFormed := by
  induction requests generalizing s with
  | nil => exact hs
  | cons q rest ih => exact ih (hs.serve q)

theorem precedes_after (s : Store) (requests : List Request) : s.Precedes (s.after requests) := by
  induction requests generalizing s with
  | nil => exact Precedes.refl s
  | cons q rest ih => exact (precedes_serve s q).trans (ih (s.serve q).2)

theorem written_cons (s : Store) (q : Request) (rest : List Request) :
    s.written (q :: rest) = (s.serve q).1.revision?.toList ++ (s.serve q).2.written rest := by
  unfold written
  rw [served, List.filterMap_cons]
  cases (s.serve q).1.revision? <;> rfl

/-- Every revision that is written takes one sequence, and nothing else does. -/
theorem sequence_after (s : Store) (requests : List Request) :
    (s.after requests).sequence = s.sequence + (s.written requests).length := by
  induction requests generalizing s with
  | nil => simp [after, written, served]
  | cons q rest ih =>
    have hrest : (s.after (q :: rest)).sequence = ((s.serve q).2.after rest).sequence := rfl
    rw [hrest, ih, written_cons, List.length_append]
    rcases hq : s.serve q with ⟨reply, t⟩
    cases reply with
    | written r =>
      have hseq := (sequence_of_written hq).1
      simp only [Reply.revision?, Option.toList_some, List.length_singleton]
      omega
    | purged found =>
      have hseq := sequence_of_purged hq
      simp only [Reply.revision?, Option.toList_none, List.length_nil]
      omega
    | refused e =>
      rw [eq_of_refused hq]
      simp [Reply.revision?]

theorem written_ascending (s : Store) (requests : List Request) :
    (s.written requests).Pairwise (·.sequence < ·.sequence) ∧
      ∀ r ∈ s.written requests, s.sequence < r.sequence ∧ ∃ g, r.revId = Revision.makeId g r.sequence := by
  induction requests generalizing s with
  | nil => simp [written, served]
  | cons q rest ih =>
    have hle := (precedes_serve s q).sequence_le
    obtain ⟨hpairwise, hafter⟩ := ih (s.serve q).2
    rw [written_cons]
    cases hreply : (s.serve q).1.revision? with
    | none =>
      rw [Option.toList_none, List.nil_append]
      refine ⟨hpairwise, fun r hr => ⟨?_, (hafter r hr).2⟩⟩
      have := (hafter r hr).1
      omega
    | some r =>
      have hq : s.serve q = (.written r, (s.serve q).2) := Prod.ext (Reply.revision?_eq_some.mp hreply) rfl
      obtain ⟨hseq, hr, _, hid⟩ := sequence_of_written hq
      rw [Option.toList_some, List.singleton_append, List.pairwise_cons]
      refine ⟨⟨fun r' hr' => ?_, hpairwise⟩, fun r' hr' => ?_⟩
      · have := (hafter r' hr').1
        omega
      · rcases List.mem_cons.mp hr' with rfl | hr'
        · exact ⟨by omega, hid⟩
        · refine ⟨?_, (hafter r' hr').2⟩
          have := (hafter r' hr').1
          omega

end Store

end DocIndex
