import DocIndex.Index.Catalog
import DocIndex.Proofs.Json.Quoted
import Mathlib.Data.String.Basic

/-! # Settings as text

The catalog keeps the settings of an index as the text of a JSON object. Settings whose keys ascend, as
they do when they are made by `Settings.insert`, are read back as they were.
-/

namespace DocIndex

namespace Json

theorem length_membersChars (members : List (String × String)) :
    members.length ≤ (membersChars members).length := by
  induction members with
  | nil => exact Nat.le_refl 0
  | cons m rest ih =>
    cases rest with
    | nil => simp [membersChars, memberChars]; omega
    | cons n more =>
      simp only [membersChars, List.length_append, List.length_cons] at ih ⊢
      omega

theorem readObject?_text (members : List (String × String)) :
    readObject? (ofStrings members).text = some (members.map fun m => (m.1, .string m.2)) := by
  have hlength : members.length < (ofStrings members).text.length + 1 := by
    rw [← String.length_toList, toList_text_ofStrings]
    have := length_membersChars members
    simp only [List.length_cons, List.length_append]
    omega
  unfold readObject?
  rw [toList_text_ofStrings, skipBlanks_of_not_blank (by decide)]
  cases members with
  | nil => rfl
  | cons m rest =>
    have hread := readMembers_membersChars (m :: rest) (by simp) _ hlength []
    obtain ⟨more, hmore⟩ : ∃ more, membersChars (m :: rest) ++ ['\x7d'] = '"' :: more := by
      cases rest <;> exact ⟨_, by simp [membersChars, memberChars, quoteChars]; rfl⟩
    rw [hmore] at hread
    simp only [hmore, skipBlanks_of_not_blank (show isBlank '"' = false by decide)]
    split
    · rename_i after hafter
      cases hread.symm.trans hafter
      rfl
    · rename_i hnone
      cases hread.symm.trans hnone

end Json

namespace Settings

theorem ascending_nil : Ascending [] := List.Pairwise.nil

theorem mem_insert {s : Settings} {key value : String} {m : String × String} (h : m ∈ insert key value s) :
    m.1 = key ∨ m ∈ s := by
  induction s with
  | nil =>
    left
    rw [List.mem_singleton.mp h]
  | cons n rest ih =>
    obtain ⟨k, v⟩ := n
    unfold insert at h
    split at h
    · rcases List.mem_cons.mp h with rfl | h
      · exact Or.inl rfl
      · exact Or.inr h
    · split at h
      · rcases List.mem_cons.mp h with rfl | h
        · exact Or.inl rfl
        · exact Or.inr (List.mem_cons_of_mem _ h)
      · rcases List.mem_cons.mp h with rfl | h
        · exact Or.inr List.mem_cons_self
        · exact (ih h).imp_right (List.mem_cons_of_mem _)

theorem Ascending.insert {s : Settings} (h : s.Ascending) (key value : String) :
    (s.insert key value).Ascending := by
  induction s with
  | nil => exact List.pairwise_singleton _ _
  | cons n rest ih =>
    obtain ⟨k, v⟩ := n
    have hcons := List.pairwise_cons.mp h
    unfold Settings.insert
    split
    · rename_i hlt
      refine List.Pairwise.cons ?_ h
      intro m hm
      rcases List.mem_cons.mp hm with rfl | hm
      · exact hlt
      · exact lt_trans hlt (hcons.1 m hm)
    · split
      · rename_i heq
        subst heq
        exact List.Pairwise.cons hcons.1 hcons.2
      · rename_i hnot hne
        refine List.Pairwise.cons ?_ (ih hcons.2)
        intro m hm
        rcases mem_insert hm with hkey | hm
        · rw [hkey]
          exact lt_of_le_of_ne (not_lt.mp hnot) (Ne.symm hne)
        · exact hcons.1 m hm

theorem get?_insert_isSome (s : Settings) (key value : String) : ((s.insert key value).get? key).isSome := by
  have hmem : (key, value) ∈ s.insert key value := by
    induction s with
    | nil => exact List.mem_singleton_self _
    | cons n rest ih =>
      obtain ⟨k, v⟩ := n
      unfold insert
      split
      · exact List.mem_cons_self
      · split
        · exact List.mem_cons_self
        · exact List.mem_cons_of_mem _ ih
  unfold get?
  rw [Option.isSome_map, List.find?_isSome]
  exact ⟨_, hmem, beq_self_eq_true key⟩

theorem insert_of_forall_lt {s : Settings} {key : String} (h : ∀ m ∈ s, m.1 < key) (value : String) :
    insert key value s = s ++ [(key, value)] := by
  induction s with
  | nil => rfl
  | cons m rest ih =>
    have hm : m.1 < key := h m List.mem_cons_self
    have hrest := ih fun m' hm' => h m' (List.mem_cons_of_mem _ hm')
    simp only [insert, if_neg (lt_asymm hm), if_neg (ne_of_gt hm), hrest, List.cons_append]

theorem ofMembers?_strings {s : Settings} (hs : s.Ascending) :
    ofMembers? (s.map fun m => (m.1, .string m.2)) = some s := by
  have key : ∀ (front : Settings), Ascending (front ++ s) →
      (s.map fun m => (m.1, Json.string m.2)).foldlM
        (fun acc m => m.2.asString?.map fun v => insert m.1 v acc) front = some (front ++ s) := by
    clear hs
    induction s with
    | nil => simp
    | cons m rest ih =>
      intro front hf
      have hlt : ∀ m' ∈ front, m'.1 < m.1 := fun m' hm' =>
        (List.pairwise_append.mp hf).2.2 m' hm' m List.mem_cons_self
      have hnext := ih (front ++ [m]) (by simpa using hf)
      have hread : (Json.string m.2).asString? = some m.2 := rfl
      simp only [List.map_cons, List.foldlM_cons, hread, Option.map_some, Option.bind_eq_bind, Option.bind_some,
        insert_of_forall_lt hlt]
      simpa using hnext
  exact key [] hs

theorem read?_text {s : Settings} (hs : s.Ascending) : read? s.text = some s := by
  have htext : s.text = (Json.ofStrings s).text := rfl
  unfold read?
  rw [htext, Json.readObject?_text]
  exact ofMembers?_strings hs

end Settings

end DocIndex
