import DocIndex.Proofs.Database.Holds

/-! # What updates leave alone

An update of an index fixes types of its fields and moves its checkpoint, and changes nothing else of its
definition. What is left of a definition without these is its bare form.
-/

namespace DocIndex

namespace Definition

/-- A definition without what an update changes: the types of its fields and its checkpoint. -/
def bare (d : Definition) : Definition :=
  { d with fields := d.fields.map fun f => { path := f.path }, lastSequence := 0 }

theorem paths_bare (d : Definition) : d.bare.paths = d.paths := by
  rw [paths, bare, List.map_map]
  rfl

theorem bare_settled (d : Definition) (r : Revision) : (d.settled r).bare = d.bare := by
  have hpaths : (d.settled r).fields.map (fun f => ({ path := f.path } : IndexField)) =
      d.fields.map fun f => { path := f.path } := by
    have h := congrArg (List.map fun path => ({ path } : IndexField)) (settled_paths d r)
    rwa [paths, paths, List.map_map, List.map_map] at h
  unfold bare
  rw [hpaths]
  rfl

end Definition

namespace Content

variable {y : Content} {xs : List Content}

theorem exists_name_of_bare {ys : List Content}
    (h : ys.map (fun z => z.definition.bare) = xs.map fun z => z.definition.bare) (hy : y ∈ ys) :
    ∃ x ∈ xs, x.name = y.name := by
  have hmem : y.definition.bare ∈ xs.map fun z => z.definition.bare := by
    rw [← h]
    exact List.mem_map_of_mem hy
  obtain ⟨x, hx, heq⟩ := List.mem_map.mp hmem
  have hname := congrArg Definition.name heq
  exact ⟨x, hx, hname⟩

theorem bare_absorbAll (x : Content) (changes : List Revision) :
    (x.absorbAll changes).definition.bare = x.definition.bare := by
  induction changes generalizing x with
  | nil => rfl
  | cons r rest ih =>
    refine (ih (x.absorb r)).trans ?_
    unfold absorb
    split
    · rfl
    · exact Definition.bare_settled x.definition r

theorem bare_apply (x : Content) (p : Page) : (x.apply p).definition.bare = x.definition.bare :=
  bare_absorbAll x p.changes

end Content

namespace Catalog

theorem map_bare_sorted (ds : List Definition) :
    (sorted ds).map Definition.bare = sorted (ds.map Definition.bare) :=
  List.map_mergeSort fun _ _ _ _ => rfl

theorem map_bare_sorted_congr {xs ys : List Content}
    (h : ys.map (fun z => z.definition.bare) = xs.map fun z => z.definition.bare) :
    (sorted (ys.map (·.definition))).map Definition.bare = (sorted (xs.map (·.definition))).map Definition.bare := by
  rw [map_bare_sorted, map_bare_sorted, List.map_map, List.map_map]
  exact congrArg sorted h

end Catalog

end DocIndex
