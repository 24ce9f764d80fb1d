/-
  EvolvingGraph.Proofs.Forest.Reweighing
  ──────────────────────────────────────
  **OF THE WEIGHTS, THE SCAN LOOKS AT THE ORDER ONLY.**

  When the edges offered get other weights, bundles and candidates come out in the
  same order with the other weights on them.  Sorting is stable, and it compares
  two weights by nothing but which is less.  So weights that are ordered alike
  lead to the same edges under the same mode, and weights that are ordered the
  other way round lead to the same edges under the other mode: ties stay ties.

  Main statements:
    * `candidates_reweigh` — candidates with other weights;
    * `Mode.prefers_alike`, `Mode.prefers_reversed` — what is asked of two weights.
-/
import EvolvingGraph.Proofs.Forest.Mapping

namespace EvolvingGraph.Forest

variable {f : Key → Real64}

/-! ## §1. Bundles with other weights. -/

/-- The edge with the weight that is given for its id. -/
def WeightedEdge.reweigh (f : Key → Real64) (e : WeightedEdge) : WeightedEdge :=
  { e with weight := f e.id.key }

/-- A bundle for the same pair with the same edges, which have the given weights. -/
structure Bundle.Reweighed (f : Key → Real64) (bundle bundle' : Bundle) : Prop where
  a : bundle'.a = bundle.a
  b : bundle'.b = bundle.b
  edges : bundle'.edges.entries = bundle.edges.entries.map fun x => (x.1, f x.1.key)

namespace Bundle.Reweighed

variable {bundle bundle' : Bundle}

theorem mapsTo (h : Reweighed f bundle bundle') : bundle.MapsTo (.reweigh f) bundle' := by
  refine ⟨h.a, h.b, ?_⟩
  unfold Bundle.weightedEdges
  rw [h.edges, h.a, h.b, List.map_map, List.map_map]
  rfl

theorem contains_eq (h : Reweighed f bundle bundle') (k : Key) :
    bundle'.edges.contains k = bundle.edges.contains k := by
  rw [Bool.eq_iff_iff, Catalog.contains_iff_mem, Catalog.contains_iff_mem, h.edges]
  simp

/-- One more edge is filed with either weight, also in the place of one that is there. -/
theorem insert (h : Reweighed f bundle bundle') {id : Identifier} (hnull : id.key ≠ .null)
    (weight : Real64) : Reweighed f
      { bundle with edges := bundle.edges.insert (idFor bundle.edges id) weight }
      { bundle' with edges := bundle'.edges.insert (idFor bundle'.edges id) (f id.key) } := by
  rw [idFor_of_ne_null hnull, idFor_of_ne_null hnull]
  refine ⟨h.a, h.b, ?_⟩
  have hcontains := h.contains_eq id.key
  show (bundle'.edges.insert id (f id.key)).entries
    = (bundle.edges.insert id weight).entries.map fun x => (x.1, f x.1.key)
  cases hold : bundle.edges.contains id.key with
  | true =>
    rw [hold] at hcontains
    rw [Catalog.entries_insert_of_contains hcontains, Catalog.entries_insert_of_contains hold,
      h.edges]
    unfold Catalog.replaceEntry
    rw [List.map_map, List.map_map]
    apply List.map_congr_left
    intro x _
    by_cases hx : x.1.key = id.key <;> simp [hx]
  | false =>
    rw [hold] at hcontains
    rw [Catalog.entries_insert_of_not_contains hcontains,
      Catalog.entries_insert_of_not_contains hold, h.edges, List.map_append]
    rfl

end Bundle.Reweighed

/-- Bundles that are, in turn, reweighed. -/
abbrev BundlesReweighed (f : Key → Real64) : List Bundle → List Bundle → Prop :=
  List.Forall₂ (Bundle.Reweighed f)

namespace BundlesReweighed

variable {bundles bundles' : List Bundle}

theorem mapsTo (h : BundlesReweighed f bundles bundles') :
    BundlesMapTo (.reweigh f) bundles bundles' := h.imp fun _ _ hb => hb.mapsTo

/-- One more edge is bundled alike with either weight. -/
theorem addEdge (h : BundlesReweighed f bundles bundles') {id : Identifier}
    (hnull : id.key ≠ .null) (a b : Key) (weight : Real64) :
    BundlesReweighed f (addEdge bundles a b id weight) (addEdge bundles' a b id (f id.key)) := by
  unfold Forest.addEdge
  rw [h.mapsTo.any_joins]
  split
  · unfold BundlesReweighed
    rw [List.forall₂_map_left_iff, List.forall₂_map_right_iff]
    refine h.imp fun bundle bundle' hb => ?_
    rw [hb.mapsTo.joins]
    split
    · exact hb.insert hnull weight
    · exact hb
  · have hnew : Bundle.Reweighed f ⟨a, b, .empty⟩ ⟨a, b, .empty⟩ :=
      ⟨rfl, rfl, by simp [Catalog.empty]⟩
    exact List.rel_append h (.cons (hnew.insert hnull weight) .nil)

/-- All edges are bundled alike with either weights. -/
theorem foldl_addEdge (h : BundlesReweighed f bundles bundles') {offered : List WeightedEdge}
    (hnull : ∀ e ∈ offered, e.id.key ≠ .null) : BundlesReweighed f
      (offered.foldl (fun bundles e => Forest.addEdge bundles e.a e.b e.id e.weight) bundles)
      ((offered.map (WeightedEdge.reweigh f)).foldl
        (fun bundles e => Forest.addEdge bundles e.a e.b e.id e.weight) bundles') := by
  induction offered generalizing bundles bundles' with
  | nil => exact h
  | cons e rest ih =>
    have hstep := h.addEdge (hnull e List.mem_cons_self) e.a e.b e.weight
    exact ih hstep fun f hf => hnull f (List.mem_cons_of_mem _ hf)

end BundlesReweighed

/-- **Candidates come out in the same order with other weights on them.** -/
theorem candidates_reweigh (f : Key → Real64) {offered : List WeightedEdge}
    (hnull : ∀ e ∈ offered, e.id.key ≠ .null) (nodes : List Key) :
    candidates (bundleAll (offered.map (WeightedEdge.reweigh f))) nodes
      = (candidates (bundleAll offered) nodes).map (.reweigh f) := by
  have hbundles : BundlesReweighed f [] [] := .nil
  exact candidates_map (hbundles.foldl_addEdge hnull).mapsTo nodes

/-! ## §2. Comparing weights. -/

namespace Mode

variable {x y x' y' : Real64}

/-- Which of two weights is wanted is settled by which is less. -/
theorem prefers_alike (mode : Mode) (h : x < y ↔ x' < y') (h' : y < x ↔ y' < x') :
    mode.prefers x y = mode.prefers x' y' := by
  simp only [Real64.lt_iff_rank] at h h'
  cases mode <;> simp only [prefers, Real64.le_iff_rank, decide_eq_decide] <;> omega

/-- The two modes want the opposite. -/
theorem prefers_reversed {mode mode' : Mode} (hmode : mode' ≠ mode) (h : x < y ↔ y' < x')
    (h' : y < x ↔ x' < y') : mode.prefers x y = mode'.prefers x' y' := by
  simp only [Real64.lt_iff_rank] at h h'
  cases mode <;> cases mode' <;> simp only [prefers, Real64.le_iff_rank, decide_eq_decide] <;>
    first | omega | exact absurd rfl hmode

end Mode
end EvolvingGraph.Forest
