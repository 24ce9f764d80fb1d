/-
  EvolvingGraph.Proofs.Forest.Mapping
  ───────────────────────────────────
  **EDGES THAT ARE OFFERED WITH OTHER DATA ON THEM.**

  Bundles, candidates and the scan look at ends, and sorting looks at how weights
  compare.  So when the edges get other ids or other weights, the same ends in
  the same places, candidates come out in the same order; and if the weights
  compare as before, under the same mode or another one, the scan takes the
  same edges.

  Main statements:
    * `candidates_map` — bundles that belong together are listed alike;
    * `scan_map` — the scan looks at ends only;
    * `kruskal_map` — where weights compare as before, alike edges are taken.
-/
import EvolvingGraph.Proofs.Forest.Bundles

namespace EvolvingGraph.Forest

variable {φ : WeightedEdge → WeightedEdge}

/-! ## §1. Candidates. -/

/-- A bundle for the same pair, with the same edges with other data on them. -/
structure Bundle.MapsTo (φ : WeightedEdge → WeightedEdge) (bundle bundle' : Bundle) : Prop where
  a : bundle'.a = bundle.a
  b : bundle'.b = bundle.b
  edges : bundle'.weightedEdges = bundle.weightedEdges.map φ

namespace Bundle.MapsTo

variable {bundle bundle' : Bundle}

theorem joins (h : MapsTo φ bundle bundle') (a b : Key) :
    bundle'.joins a b = bundle.joins a b := by
  unfold Bundle.joins
  rw [h.a, h.b]

theorem touches (h : MapsTo φ bundle bundle') (k : Key) :
    bundle'.touches k = bundle.touches k := by
  unfold Bundle.touches
  rw [h.a, h.b]

end Bundle.MapsTo

/-- Bundles that belong together in turn. -/
abbrev BundlesMapTo (φ : WeightedEdge → WeightedEdge) : List Bundle → List Bundle → Prop :=
  List.Forall₂ (Bundle.MapsTo φ)

namespace BundlesMapTo

variable {bundles bundles' : List Bundle}

theorem any_joins (h : BundlesMapTo φ bundles bundles') (a b : Key) :
    bundles'.any (·.joins a b) = bundles.any (·.joins a b) := by
  induction h with
  | nil => rfl
  | cons hb _ ih => rw [List.any_cons, List.any_cons, hb.joins, ih]

theorem flatMap_weightedEdges (h : BundlesMapTo φ bundles bundles') :
    bundles'.flatMap Bundle.weightedEdges = (bundles.flatMap Bundle.weightedEdges).map φ := by
  induction h with
  | nil => rfl
  | cons hb _ ih => rw [List.flatMap_cons, List.flatMap_cons, List.map_append, hb.edges, ih]

end BundlesMapTo

/-- **Bundles that belong together are listed alike.** -/
theorem candidates_map {bundles bundles' : List Bundle} (h : BundlesMapTo φ bundles bundles')
    (nodes : List Key) : candidates bundles' nodes = (candidates bundles nodes).map φ := by
  induction nodes generalizing bundles bundles' with
  | nil => rfl
  | cons k rest ih =>
    have hat : BundlesMapTo φ (bundles.filter (·.touches k)) (bundles'.filter (·.touches k)) :=
      List.rel_filter (fun _ _ hb => by simp [hb.touches]) h
    have hlater : BundlesMapTo φ (bundles.filter (!·.touches k))
        (bundles'.filter (!·.touches k)) :=
      List.rel_filter (fun _ _ hb => by simp [hb.touches]) h
    unfold candidates
    rw [hat.flatMap_weightedEdges, ih hlater, List.map_append]

/-! ## §2. The scan. -/

/-- Other data on edges that leaves their ends. -/
def KeepsEnds (φ : WeightedEdge → WeightedEdge) : Prop := ∀ e, (φ e).a = e.a ∧ (φ e).b = e.b

/-- The scan looks at ends only. -/
theorem scan_map (hends : KeepsEnds φ) (p : Partition) (edges : List WeightedEdge) :
    scan p (edges.map φ) = (scan p edges).map φ := by
  induction edges generalizing p with
  | nil => rfl
  | cons e rest ih =>
    obtain ⟨ha, hb⟩ := hends e
    rw [List.map_cons]
    unfold scan
    rw [ha, hb]
    split
    · exact ih p
    · rw [List.map_cons, ih]

/-- **Where weights compare as before, under one mode or another, the scan takes
the same edges.** -/
theorem kruskal_map (hends : KeepsEnds φ) {mode mode' : Mode} {edges : List WeightedEdge}
    (hprefers : ∀ e ∈ edges, ∀ f ∈ edges,
      mode.prefers e.weight f.weight = mode'.prefers (φ e).weight (φ f).weight) :
    kruskal mode' (edges.map φ) = (kruskal mode edges).map φ := by
  unfold kruskal byWeight
  rw [← scan_map hends, List.map_mergeSort]
  exact hprefers

end EvolvingGraph.Forest
