/-
  EvolvingGraph.Proofs.Forest.Renaming
  ────────────────────────────────────
  **THE SCAN DOES NOT LOOK AT IDS.**

  When the edges offered get other ids, bundles and candidates come out in the
  same order with the other ids on them, and the scan takes the same ones.  What
  is needed is that ids are told apart on both sides, and that none of them is
  "nothing": in a bundle such an edge would be known by a number instead.

  Main statements:
    * `Renamed.addEdge` — bundling one more edge under either id;
    * `candidates_renamed` — bundles are listed alike;
    * `kruskal_map_rename` — and alike edges are taken.
-/
import EvolvingGraph.Proofs.Forest.Mapping

namespace EvolvingGraph.Forest

variable {r : Identifier → Identifier}

/-! ## §1. Bundles with other ids. -/

/-- The edge with another id. -/
def WeightedEdge.rename (r : Identifier → Identifier) (e : WeightedEdge) : WeightedEdge :=
  { e with id := r e.id }

/-- A bundle for the same pair with the same edges under other ids; those of the
first bundle are among the given ones. -/
structure Bundle.Renamed (r : Identifier → Identifier) (ids : List Identifier)
    (bundle bundle' : Bundle) : Prop where
  a : bundle'.a = bundle.a
  b : bundle'.b = bundle.b
  edges : bundle'.edges.entries = bundle.edges.entries.map fun x => (r x.1, x.2)
  known : ∀ x ∈ bundle.edges.entries, x.1 ∈ ids

namespace Bundle.Renamed

variable {ids : List Identifier} {bundle bundle' : Bundle}

theorem weightedEdges (h : Renamed r ids bundle bundle') :
    bundle'.weightedEdges = bundle.weightedEdges.map (.rename r) := by
  unfold Bundle.weightedEdges
  rw [h.edges, h.a, h.b, List.map_map, List.map_map]
  rfl

theorem mapsTo (h : Renamed r ids bundle bundle') : bundle.MapsTo (.rename r) bundle' :=
  ⟨h.a, h.b, h.weightedEdges⟩

theorem mono (h : Renamed r ids bundle bundle') {ids' : List Identifier} (hsub : ids ⊆ ids') :
    Renamed r ids' bundle bundle' := ⟨h.a, h.b, h.edges, fun x hx => hsub (h.known x hx)⟩

/-- An id that differs from the known ones is not in use, under either name. -/
theorem fresh (h : Renamed r ids bundle bundle') {id : Identifier}
    (hfresh : ∀ j ∈ ids, j.key ≠ id.key ∧ (r j).key ≠ (r id).key) :
    bundle.edges.contains id.key = false ∧ bundle'.edges.contains (r id).key = false := by
  rw [Bool.eq_false_iff, Bool.eq_false_iff, ne_eq, ne_eq, Catalog.contains_iff_mem,
    Catalog.contains_iff_mem, h.edges]
  constructor
  · rintro ⟨x, hx, hkey⟩
    exact (hfresh _ (h.known x hx)).1 hkey
  · rintro ⟨x', hx', hkey⟩
    obtain ⟨x, hx, rfl⟩ := List.mem_map.1 hx'
    exact (hfresh _ (h.known x hx)).2 hkey

/-- One more edge is filed under either id. -/
theorem insert (h : Renamed r ids bundle bundle') {id : Identifier}
    (hnull : id.key ≠ .null ∧ (r id).key ≠ .null)
    (hfresh : ∀ j ∈ ids, j.key ≠ id.key ∧ (r j).key ≠ (r id).key) (weight : Real64) :
    Renamed r (id :: ids)
      { bundle with edges := bundle.edges.insert (idFor bundle.edges id) weight }
      { bundle' with edges := bundle'.edges.insert (idFor bundle'.edges (r id)) weight } := by
  obtain ⟨hnew, hnew'⟩ := h.fresh hfresh
  rw [idFor_of_ne_null hnull.1, idFor_of_ne_null hnull.2]
  refine ⟨h.a, h.b, ?_, ?_⟩
  · show (bundle'.edges.insert _ _).entries = (bundle.edges.insert _ _).entries.map _
    rw [Catalog.entries_insert_of_not_contains hnew, Catalog.entries_insert_of_not_contains hnew',
      h.edges, List.map_append]
    rfl
  · intro x hx
    change x ∈ (bundle.edges.insert id weight).entries at hx
    rw [Catalog.entries_insert_of_not_contains hnew] at hx
    obtain hx | hx := List.mem_append.1 hx
    · exact List.mem_cons_of_mem _ (h.known x hx)
    · rw [List.mem_singleton.1 hx]
      exact List.mem_cons_self

end Bundle.Renamed

/-- Bundles that are, in turn, renamed. -/
abbrev BundlesRenamed (r : Identifier → Identifier) (ids : List Identifier) :
    List Bundle → List Bundle → Prop := List.Forall₂ (Bundle.Renamed r ids)

theorem BundlesRenamed.mapsTo {ids : List Identifier} {bundles bundles' : List Bundle}
    (h : BundlesRenamed r ids bundles bundles') : BundlesMapTo (.rename r) bundles bundles' :=
  h.imp fun _ _ hb => hb.mapsTo

/-- **One more edge is bundled alike under either id.** -/
theorem BundlesRenamed.addEdge {ids : List Identifier} {bundles bundles' : List Bundle}
    (h : BundlesRenamed r ids bundles bundles') {id : Identifier}
    (hnull : id.key ≠ .null ∧ (r id).key ≠ .null)
    (hfresh : ∀ j ∈ ids, j.key ≠ id.key ∧ (r j).key ≠ (r id).key) (a b : Key) (weight : Real64) :
    BundlesRenamed r (id :: ids) (addEdge bundles a b id weight)
      (addEdge bundles' a b (r id) weight) := by
  unfold Forest.addEdge
  rw [h.mapsTo.any_joins]
  have hsub : ids ⊆ id :: ids := List.subset_cons_self id ids
  split
  · unfold BundlesRenamed
    rw [List.forall₂_map_left_iff, List.forall₂_map_right_iff]
    refine h.imp fun bundle bundle' hb => ?_
    rw [hb.mapsTo.joins]
    split
    · exact hb.insert hnull hfresh weight
    · exact hb.mono hsub
  · refine List.rel_append (h.imp fun _ _ hb => hb.mono hsub) (.cons ?_ .nil)
    have hnew : Bundle.Renamed r ids ⟨a, b, .empty⟩ ⟨a, b, .empty⟩ :=
      ⟨rfl, rfl, rfl, by simp [Catalog.empty]⟩
    exact hnew.insert hnull hfresh weight

/-! ## §2. Candidates and the scan. -/

theorem candidates_renamed {ids : List Identifier} {bundles bundles' : List Bundle}
    (h : BundlesRenamed r ids bundles bundles') (nodes : List Key) :
    candidates bundles' nodes = (candidates bundles nodes).map (.rename r) :=
  candidates_map h.mapsTo nodes

theorem BundlesRenamed.known {ids : List Identifier} {bundles bundles' : List Bundle}
    (h : BundlesRenamed r ids bundles bundles') :
    ∀ bundle ∈ bundles, ∀ x ∈ bundle.edges.entries, x.1 ∈ ids := by
  induction h with
  | nil => simp
  | cons hb _ ih => exact List.forall_mem_cons.2 ⟨hb.known, ih⟩

/-- A candidate has one of the ids that the bundles know. -/
theorem id_mem_of_mem_candidates {ids : List Identifier} {bundles : List Bundle}
    (hknown : ∀ bundle ∈ bundles, ∀ x ∈ bundle.edges.entries, x.1 ∈ ids) {nodes : List Key}
    {c : WeightedEdge} (hc : c ∈ candidates bundles nodes) : c.id ∈ ids := by
  induction nodes generalizing bundles with
  | nil => exact absurd hc List.not_mem_nil
  | cons k rest ih =>
    unfold candidates at hc
    obtain hc | hc := List.mem_append.1 hc
    · obtain ⟨bundle, hb, hc⟩ := List.mem_flatMap.1 hc
      obtain ⟨x, hx, rfl⟩ := List.mem_map.1 hc
      exact hknown bundle (List.mem_filter.1 hb).1 x hx
    · exact ih (fun bundle hb => hknown bundle (List.mem_filter.1 hb).1) hc

/-- **Edges with other ids are taken by the scan exactly as before.** -/
theorem kruskal_map_rename (mode : Mode) (edges : List WeightedEdge) :
    kruskal mode (edges.map (.rename r)) = (kruskal mode edges).map (.rename r) := by
  have hends : KeepsEnds (.rename r) := fun _ => ⟨rfl, rfl⟩
  exact kruskal_map hends fun _ _ _ _ => rfl

end EvolvingGraph.Forest
