import DocIndex.Proofs.Document.Feed
import Mathlib.Data.List.TakeDrop
import Std.Data.String.ToNat

/-! # Ids of revisions

The id of a revision tells its generation and the sequence it was written at. So no two revisions of a history have the
same id, and a revision is found by its id.
-/

namespace DocIndex

namespace Revision

theorem ofDigitChars_padZeros (width n : Nat) : Nat.ofDigitChars 10 (padZeros width n) 0 = n := by
  unfold padZeros
  rw [Nat.ofDigitChars_append, Nat.ofDigitChars_replicate_zero, Nat.mul_zero, Nat.ofDigitChars_ten_toDigits]

theorem isDigit_of_mem_toDigits {n : Nat} {c : Char} (h : c ∈ Nat.toDigits 10 n) : c.isDigit = true :=
  Nat.isDigit_of_mem_toDigits (by decide) (by decide) h

theorem not_mem_toDigits (n : Nat) : '-' ∉ Nat.toDigits 10 n :=
  fun h => absurd (isDigit_of_mem_toDigits h) (by decide)

theorem not_mem_padZeros (width n : Nat) : '-' ∉ padZeros width n := by
  intro h
  rcases List.mem_append.mp h with h | h
  · exact absurd (List.eq_of_mem_replicate h) (by decide)
  · exact not_mem_toDigits n h

theorem sequence_eq_of_makeId {g g' : Nat} {seq seq' : Int} (hs : 0 ≤ seq) (hs' : 0 ≤ seq')
    (h : makeId g seq = makeId g' seq') : seq = seq' := by
  have hchars := congrArg String.toList h
  unfold makeId at hchars
  rw [String.toList_ofList, String.toList_ofList] at hchars
  have hpad := ((List.append_cons_inj_of_notMem (not_mem_toDigits g) (not_mem_padZeros 6 seq.toNat)).mp hchars).2.2
  have hnat : seq.toNat = seq'.toNat := by
    rw [← ofDigitChars_padZeros 6 seq.toNat, hpad, ofDigitChars_padZeros]
  omega

theorem readCount?_of_digits {ds : List Char} (hne : ds ≠ []) (h : ∀ c ∈ ds, c.isDigit = true) :
    readCount? ds = some (Nat.ofDigitChars 10 ds 0) := by
  have hall : ds.all Char.isDigit = true := List.all_eq_true.mpr h
  have hsome : ds.isEmpty = false := by simpa using hne
  unfold readCount?
  split
  · exact absurd (h '+' List.mem_cons_self) (by decide)
  · dsimp only
    rw [hsome, hall]
    rfl

theorem generationOf?_makeId {g : Nat} (hg : g < Nat.pow 2 64) (seq : Int) : generationOf? (makeId g seq) = some g := by
  have hhead : ∀ c ∈ Nat.toDigits 10 g, (c != '-') = true := by
    intro c hc
    rw [bne_iff_ne]
    rintro rfl
    exact not_mem_toDigits g hc
  have hread : readCount? (Nat.toDigits 10 g) = some g := by
    rw [readCount?_of_digits Nat.toDigits_ne_nil fun _ => isDigit_of_mem_toDigits, Nat.ofDigitChars_ten_toDigits]
  unfold generationOf? makeId
  rw [String.toList_ofList, List.span_eq_takeWhile_dropWhile, List.takeWhile_append_of_pos hhead,
    List.dropWhile_append_of_pos hhead, List.takeWhile_cons_of_neg (by decide), List.dropWhile_cons_of_neg (by decide)]
  dsimp only
  rw [List.append_nil, hread, if_neg (by simp)]
  exact Option.filter_eq_some_iff.mpr ⟨rfl, decide_eq_true hg⟩

end Revision

namespace Store

variable {s : Store} {id : String} {r q : Revision}

theorem WellFormed.eq_of_revId (hs : s.WellFormed) (hr : r ∈ s.history id) (hq : q ∈ s.history id)
    (h : r.revId = q.revId) : r = q := by
  obtain ⟨g, hg⟩ := hs.revId_eq id r hr
  obtain ⟨g', hg'⟩ := hs.revId_eq id q hq
  have hrpos := (hs.bounded id r hr).1
  have hqpos := (hs.bounded id q hq).1
  have hseq : r.sequence = q.sequence := by
    rw [hg, hg'] at h
    exact Revision.sequence_eq_of_makeId (by omega) (by omega) h
  have hn : ((s.history id).map (·.sequence)).Nodup := by
    rw [List.nodup_iff_pairwise_ne, List.pairwise_map]
    exact (hs.ascending id).imp fun hlt => by omega
  exact List.inj_on_of_nodup_map hn hr hq hseq

theorem WellFormed.revision?_winning (hs : s.WellFormed) (h : s.winning? id = some r) :
    s.revision? id r.revId = some r := by
  have hr := mem_history_of_winning? h
  exact find?_key hr fun q hq hrev => hs.eq_of_revId hq hr hrev

theorem revision?_of_winning_none (h : s.winning? id = none) (revId : String) : s.revision? id revId = none := by
  have hnone : s.history id = [] := List.getLast?_eq_none_iff.mp h
  rw [revision?, hnone]
  rfl

end Store

end DocIndex
