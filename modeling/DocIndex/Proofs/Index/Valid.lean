import DocIndex.Proofs.Index.Catalog
import DocIndex.Proofs.Index.Rows
import DocIndex.Proofs.Basic
import DocIndex.Index.Spec

/-! # Valid definitions

The definition that a validated request makes is valid: its fields are different, a value index has no
settings, and a text index has a valid tokenizer as its only one.
-/

namespace DocIndex

/-- A definition as a validated request makes it. -/
structure Definition.Valid (d : Definition) : Prop where
  name : isIndexName d.name = true
  fields_ne_nil : d.fields ≠ []
  paths : ∀ f ∈ d.fields, Path.isValid f.path = true
  distinct : d.paths.Nodup
  value : d.kind = .value → d.settings = []
  text : d.kind = .text → ∃ setting, d.settings = [(tokenizeKey, setting)] ∧ isTokenizerSetting setting = true

namespace Definition

variable {d e : Definition}

theorem Valid.storable (h : d.Valid) : d.Storable := by
  refine ⟨h.fields_ne_nil, ?_⟩
  cases hk : d.kind with
  | value =>
    rw [h.value hk]
    exact List.Pairwise.nil
  | text =>
    obtain ⟨setting, hs, _⟩ := h.text hk
    rw [hs]
    exact List.pairwise_singleton _ _

theorem Valid.congr (h : d.Valid) (hn : e.name = d.name) (hk : e.kind = d.kind) (hs : e.settings = d.settings)
    (hp : e.paths = d.paths) : e.Valid := by
  refine ⟨by rw [hn]; exact h.name, ?_, ?_, by rw [hp]; exact h.distinct, ?_, ?_⟩
  · intro hnil
    have hnone : d.paths = [] := by
      rw [← hp]
      exact List.map_eq_nil_iff.mpr hnil
    exact h.fields_ne_nil (List.map_eq_nil_iff.mp hnone)
  · intro f hf
    have hmem : f.path ∈ d.paths := by
      rw [← hp]
      exact List.mem_map_of_mem hf
    obtain ⟨g, hg, hpath⟩ := List.mem_map.mp hmem
    rw [← hpath]
    exact h.paths g hg
  · rw [hk, hs]
    exact h.value
  · rw [hk, hs]
    exact h.text

theorem columnsFrom_eq_of_paths {fields later : List IndexField} (h : later.map (·.path) = fields.map (·.path))
    (position : Nat) :
    (columnsFrom position later).map (·.2) = (columnsFrom position fields).map (·.2) := by
  induction fields generalizing later position with
  | nil =>
    rw [List.map_nil, List.map_eq_nil_iff] at h
    rw [h]
  | cons f rest ih =>
    cases later with
    | nil => simp at h
    | cons g more =>
      rw [List.map_cons, List.map_cons, List.cons_eq_cons] at h
      have hb : g.isBuiltin = f.isBuiltin := by simp [IndexField.isBuiltin, h.1]
      unfold columnsFrom
      rw [hb]
      split
      · exact ih h.2 (position + 1)
      · rw [List.map_cons, List.map_cons, ih h.2 (position + 1)]

theorem fieldColumns_eq_of_paths (h : e.paths = d.paths) :
    e.fieldColumns.map (·.2) = d.fieldColumns.map (·.2) := columnsFrom_eq_of_paths h 0

theorem lookups_eq_of_paths (hn : e.name = d.name) (hk : e.kind = d.kind) (hp : e.paths = d.paths) :
    e.lookups = d.lookups := by
  have hcolumns : e.fieldColumns.isEmpty = d.fieldColumns.isEmpty := by
    rw [← List.isEmpty_map (f := (·.2)), fieldColumns_eq_of_paths hp, List.isEmpty_map]
  unfold lookups
  rw [hn, hk, hcolumns]

theorem settled_paths (d : Definition) (r : Revision) : (d.settled r).paths = d.paths :=
  (refines_settled d r).map_path

end Definition

/-! ## Validated requests -/

namespace IndexSpec

def definition (s : IndexSpec) (start : Int) : Definition :=
  { name := s.name, kind := s.kind, fields := s.fields, settings := s.settings, lastSequence := start }

variable {s : IndexSpec}

theorem checkFields_ok {seen : List String} {fields : List IndexField} (h : checkFields seen fields = .ok ()) :
    (∀ f ∈ fields, Path.isValid f.path = true ∧ f.path ∉ seen) ∧ (fields.map (·.path)).Nodup := by
  induction fields generalizing seen with
  | nil => simp
  | cons f rest ih =>
    unfold checkFields at h
    split at h
    · simp at h
    · split at h
      · simp at h
      · rename_i hvalid hseen
        obtain ⟨hrest, hnodup⟩ := ih h
        have hvalid : Path.isValid f.path = true := by simpa using hvalid
        have hseen : f.path ∉ seen := by simpa using hseen
        refine ⟨?_, ?_⟩
        · intro g hg
          rcases List.mem_cons.mp hg with rfl | hg
          · exact ⟨hvalid, hseen⟩
          · exact ⟨(hrest g hg).1, fun hmem => (hrest g hg).2 (List.mem_cons_of_mem _ hmem)⟩
        · rw [List.map_cons, List.nodup_cons]
          refine ⟨?_, hnodup⟩
          intro hmem
          obtain ⟨g, hg, hpath⟩ := List.mem_map.mp hmem
          exact (hrest g hg).2 (by rw [hpath]; exact List.mem_cons_self)

theorem checkTextSettings_ok {settings : Settings} (h : checkTextSettings settings = .ok ()) :
    ∀ m ∈ settings, m.1 = tokenizeKey ∧ isTokenizerSetting m.2 = true := by
  induction settings with
  | nil => simp
  | cons m rest ih =>
    obtain ⟨key, value⟩ := m
    unfold checkTextSettings at h
    split at h
    · simp at h
    · split at h
      · simp at h
      · rename_i hkey hvalue
        intro m hm
        rcases List.mem_cons.mp hm with rfl | hm
        · exact ⟨by simpa using hkey, by simpa using hvalue⟩
        · exact ih h m hm

theorem eq_singleton_of_keys {settings : Settings} {key : String} (hs : settings.Ascending)
    (hk : ∀ m ∈ settings, m.1 = key) (hget : (settings.get? key).isSome) :
    ∃ value, settings = [(key, value)] ∧ (key, value) ∈ settings := by
  cases settings with
  | nil => simp [Settings.get?] at hget
  | cons m rest =>
    obtain ⟨k, value⟩ := m
    obtain rfl : k = key := hk (k, value) List.mem_cons_self
    cases rest with
    | nil => exact ⟨value, rfl, List.mem_cons_self⟩
    | cons n more =>
      have hlt := (List.pairwise_cons.mp hs).1 n List.mem_cons_self
      rw [hk n (List.mem_cons_of_mem _ List.mem_cons_self)] at hlt
      exact absurd hlt (lt_irrefl k)

theorem withDefaultTokenizer_name (s : IndexSpec) (tokenizer : String) :
    (s.withDefaultTokenizer tokenizer).name = s.name := by
  unfold withDefaultTokenizer
  split <;> rfl

theorem withDefaultTokenizer_fields (s : IndexSpec) (tokenizer : String) :
    (s.withDefaultTokenizer tokenizer).fields = s.fields := by
  unfold withDefaultTokenizer
  split <;> rfl

theorem withDefaultTokenizer_get? (s : IndexSpec) (tokenizer : String)
    (hk : (s.withDefaultTokenizer tokenizer).kind = .text) :
    ((s.withDefaultTokenizer tokenizer).settings.get? tokenizeKey).isSome := by
  unfold withDefaultTokenizer at hk ⊢
  split at hk
  · rw [if_pos ‹_›]
    exact Settings.get?_insert_isSome s.settings tokenizeKey tokenizer
  · rename_i hnot
    rw [if_neg hnot]
    rw [not_and] at hnot
    exact Option.isSome_iff_ne_none.mpr (by simpa using hnot hk)

theorem validate_ok (h : s.validate = .ok ()) :
    isIndexName s.name = true ∧ s.fields ≠ [] ∧ checkFields [] s.fields = .ok () ∧ s.checkSettings = .ok () := by
  unfold validate at h
  obtain ⟨_, hname, h⟩ := ok_of_bind h
  have hcontents := ok_of_mapError h
  refine ⟨?_, ?_⟩
  · unfold checkIndexName at hname
    split at hname
    · assumption
    · simp at hname
  · unfold checkContents at hcontents
    split at hcontents
    · simp at hcontents
    · rename_i hne
      refine ⟨by simpa using hne, ?_⟩
      obtain ⟨_, hfields, hsettings⟩ := ok_of_bind hcontents
      exact ⟨hfields, hsettings⟩

theorem not_builtin_of_validate (h : s.validate = .ok ()) (hk : s.kind = .text) :
    ∀ f ∈ s.fields, f.isBuiltin = false := by
  obtain ⟨_, _, _, hsettings⟩ := validate_ok h
  unfold checkSettings at hsettings
  simp only [hk] at hsettings
  obtain ⟨_, _, hfind⟩ := ok_of_bind hsettings
  cases hf : s.fields.find? (·.isBuiltin) with
  | some f => simp [hf] at hfind
  | none => simpa using hf

theorem definition_valid (h : s.validate = .ok ()) (hs : s.settings.Ascending)
    (ht : s.kind = .text → (s.settings.get? tokenizeKey).isSome) (start : Int) : (s.definition start).Valid := by
  obtain ⟨hname, hne, hfields, hsettings⟩ := validate_ok h
  have hgood := checkFields_ok hfields
  refine ⟨hname, hne, fun f hf => (hgood.1 f hf).1, hgood.2, ?_, ?_⟩
  · intro hk
    have hk : s.kind = .value := hk
    unfold checkSettings at hsettings
    rw [hk] at hsettings
    cases hnil : s.settings with
    | nil => exact hnil
    | cons m rest => simp [hnil] at hsettings
  · intro hk
    have hk : s.kind = .text := hk
    have hkeys : checkTextSettings s.settings = .ok () := by
      unfold checkSettings at hsettings
      rw [hk] at hsettings
      cases hc : checkTextSettings s.settings with
      | error e => simp [hc, bind, Except.bind] at hsettings
      | ok u => rfl
    have hall := checkTextSettings_ok hkeys
    obtain ⟨value, heq, hmem⟩ := eq_singleton_of_keys hs (fun m hm => (hall m hm).1) (ht hk)
    exact ⟨value, heq, (hall _ hmem).2⟩

end IndexSpec

end DocIndex
