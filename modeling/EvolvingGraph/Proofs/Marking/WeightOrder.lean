/-
  EvolvingGraph.Proofs.Marking.WeightOrder
  ────────────────────────────────────────
  **KRUSKAL'S ALGORITHM DEPENDS ON WEIGHTS ONLY THROUGH THEIR ORDER.**

  Two graphs with the same nodes and edges may have other weights, read from other
  attributes.  If of any two edges that are no loops the same one weighs less,
  the same edges are marked in the same mode; if the other one does, the same
  edges are marked in opposite modes.  In both cases ties are broken alike, by
  the order of the candidates, and a missing weight takes part as 1.

  Main statements:
    * `Graph.weighedCandidates_reweigh` — the same candidates, with the other weights on them;
    * `Graph.named_kruskal_eq` — where the weights are compared alike, the choice is the same;
    * `compute_kruskal_by_order` — what computing on both graphs marks.
-/
import EvolvingGraph.Proofs.Forest.Reweighing
import EvolvingGraph.Proofs.Marking.Choosing
import EvolvingGraph.Proofs.Marking.Uniqueness

namespace EvolvingGraph

/-! ## §1. The same edges with other weights. -/

namespace Graph

variable {g g' : Graph} {name name' : Value}

/-- The weight of the edge with a key. -/
def weightAt (g : Graph) (name : Value) (k : Key) : Real64 :=
  match g.edges.entry? k with
  | some e => g.weightOf name e
  | none => .one

theorem weightAt_of_mem {e : EdgeEntry} (he : e ∈ g.edges.entries) :
    g.weightAt name e.1.key = g.weightOf name e := by
  unfold weightAt
  rw [Catalog.entry?_eq_some_iff.2 ⟨he, rfl⟩]

theorem weighed_reweigh (hedges : g'.edges = g.edges) : g'.weighed name' g'.edges.entries
    = (g.weighed name g.edges.entries).map (.reweigh (g'.weightAt name')) := by
  unfold weighed
  rw [List.map_map, hedges]
  apply List.map_congr_left
  intro e he
  have hmem : e ∈ g'.edges.entries := by
    rw [hedges]
    exact (List.mem_filter.1 he).1
  show _ = Forest.WeightedEdge.mk _ _ _ (g'.weightAt name' e.1.key)
  rw [weightAt_of_mem hmem]
  rfl

/-- The same candidates come out with the other weights on them. -/
theorem weighedCandidates_reweigh (hnodes : g'.nodes.identifiers = g.nodes.identifiers)
    (hedges : g'.edges = g.edges) (hnamed : ∀ e ∈ g.edges.entries, e.1.key ≠ .null) :
    g'.weighedCandidates name' = (g.weighedCandidates name).map (.reweigh (g'.weightAt name')) := by
  have hnull : ∀ c ∈ g.weighed name g.edges.entries, c.id.key ≠ .null := by
    intro c hc
    obtain ⟨e, he, _, rfl⟩ := mem_weighed.1 hc
    exact hnamed e he
  unfold weighedCandidates
  rw [weighed_reweigh hedges, Forest.candidates_reweigh _ hnull]
  unfold nodeKeys
  rw [hnodes]

/-- A candidate between two nodes is an edge between two nodes, with its weight. -/
theorem Coherent.exists_proper_of_mem_weighedCandidates (hg : g.Coherent)
    (hnamed : ∀ e ∈ g.edges.entries, e.1.key ≠ .null) {c : Forest.WeightedEdge}
    (hc : c ∈ (g.weighedCandidates name).filter (!·.isLoop)) :
    ∃ e ∈ g.properEdges, c.id = e.1 ∧ c.weight = g.weightOf name e := by
  obtain ⟨hc, hproper⟩ := List.mem_filter.1 hc
  obtain ⟨e, he, -, hid, hends, hweight⟩ := hg.exists_of_mem_weighedCandidates hnamed hc
  refine ⟨e, mem_properEdges.2 ⟨he, fun hloop => ?_⟩, hid, hweight⟩
  rw [EdgeEntry.ends, hloop, Forest.WeightedEdge.ends, Sym2.eq_iff] at hends
  have hsame : c.a = c.b := by
    obtain ⟨ha, hb⟩ | ⟨ha, hb⟩ := hends <;> rw [ha, hb]
  simp [Forest.WeightedEdge.isLoop, hsame] at hproper

/-- **Where weights are compared alike, Kruskal's algorithm chooses the same edges.** -/
theorem named_kruskal_eq (hg : g.Coherent)
    (hnodes : g'.nodes.identifiers = g.nodes.identifiers) (hedges : g'.edges = g.edges)
    (hnamed : ∀ e ∈ g.edges.entries, e.1.key ≠ .null) {mode mode' : Forest.Mode}
    (hprefers : ∀ e ∈ g.properEdges, ∀ f ∈ g.properEdges,
      mode.prefers (g.weightOf name e) (g.weightOf name f)
        = mode'.prefers (g'.weightOf name' e) (g'.weightOf name' f)) :
    g'.named (Forest.kruskal mode' (g'.weighedCandidates name'))
      = g.named (Forest.kruskal mode (g.weighedCandidates name)) := by
  have hends : Forest.KeepsEnds (.reweigh (g'.weightAt name')) := fun _ => ⟨rfl, rfl⟩
  have hsame : Forest.kruskal mode' (g'.weighedCandidates name')
      = (Forest.kruskal mode (g.weighedCandidates name)).map
        (.reweigh (g'.weightAt name')) := by
    rw [weighedCandidates_reweigh hnodes hedges hnamed, ← Forest.kruskal_filter_isLoop mode',
      ← Forest.kruskal_filter_isLoop mode, List.filter_map]
    apply Forest.kruskal_map hends
    intro c hc d hd
    obtain ⟨e, he, hcid, hcweight⟩ := hg.exists_proper_of_mem_weighedCandidates hnamed hc
    obtain ⟨f, hf, hdid, hdweight⟩ := hg.exists_proper_of_mem_weighedCandidates hnamed hd
    show _ = mode'.prefers (g'.weightAt name' c.id.key) (g'.weightAt name' d.id.key)
    rw [hcweight, hdweight, hcid, hdid, weightAt_of_mem (hedges ▸ (mem_properEdges.1 he).1),
      weightAt_of_mem (hedges ▸ (mem_properEdges.1 hf).1)]
    exact hprefers e he f hf
  unfold named
  rw [hsame, hedges]
  simp only [List.any_map]
  rfl

/-- Of two edges of a graph that are no loops, the one weighs less in another graph
exactly if it does so here. -/
def OrderedAlike (name name' : Value) (g g' : Graph) : Prop :=
  ∀ e ∈ g.properEdges, ∀ f ∈ g.properEdges,
    (g.weightOf name e < g.weightOf name f ↔ g'.weightOf name' e < g'.weightOf name' f)

/-- Of two edges of a graph that are no loops, the one weighs less in another graph
exactly if the other one does so here. -/
def OrderedReversely (name name' : Value) (g g' : Graph) : Prop :=
  ∀ e ∈ g.properEdges, ∀ f ∈ g.properEdges,
    (g.weightOf name e < g.weightOf name f ↔ g'.weightOf name' f < g'.weightOf name' e)

end Graph

/-! ## §2. Computing on both graphs. -/

/-- **Weights that are ordered alike lead to the same marks in the same mode, and
weights that are ordered the other way round to the same marks in opposite modes.** -/
theorem compute_kruskal_by_order {host host' : Host} {g g' : GraphRef} {t t' : TreeRef}
    {calm calm' : World → Prop} {graph graph' : Graph} {tree tree' : Tree} {w w' : World}
    {flag flag' weight weight' : String} (h : Onlookers host g t calm)
    (h' : Onlookers host' g' t' calm') (hw : Scene g t calm graph tree w)
    (hw' : Scene g' t' calm' graph' tree' w') (hg : graph.Coherent) (hg' : graph'.Coherent)
    (hnodes : graph'.nodes.identifiers = graph.nodes.identifiers)
    (hedges : graph'.edges = graph.edges)
    (hnamed : ∀ e ∈ graph.edges.entries, e.1.key ≠ .null)
    (htree : MarksBy tree g flag weight) (htree' : MarksBy tree' g' flag' weight')
    (hkruskal : tree.strategy = .kruskal) (hkruskal' : tree'.strategy = .kruskal)
    (hvalid : ∀ e ∈ graph.edges.entries, ¬graph.HasBadWeight (.str weight) e)
    (hvalid' : ∀ e ∈ graph'.edges.entries, ¬graph'.HasBadWeight (.str weight') e)
    (horder : tree'.mode = tree.mode ∧ graph.OrderedAlike (.str weight) (.str weight') graph'
      ∨ tree'.mode ≠ tree.mode
        ∧ graph.OrderedReversely (.str weight) (.str weight') graph') :
    ∃ F after after', (compute host t).exec w = (.ok (), after)
      ∧ (compute host' t').exec w' = (.ok (), after')
      ∧ Marked g t calm graph tree flag F after
      ∧ Marked g' t' calm' graph' tree' flag' F after' := by
  have hnamed' : ∀ e ∈ graph'.edges.entries, e.1.key ≠ .null := by
    rw [hedges]
    exact hnamed
  have hstrategy : tree.strategy = Algorithm.kruskal.strategy := hkruskal
  have hstrategy' : tree'.strategy = Algorithm.kruskal.strategy := hkruskal'
  obtain ⟨after, hexec, hmarked⟩ := h.exec_compute_of_valid hw hg htree hstrategy hnamed hvalid
  obtain ⟨after', hexec', hmarked'⟩ :=
    h'.exec_compute_of_valid hw' hg' htree' hstrategy' hnamed' hvalid'
  have hsame : graph'.named (graph'.choose .kruskal tree'.mode
        (graph'.weighedCandidates (.str weight')))
      = graph.named (graph.choose .kruskal tree.mode (graph.weighedCandidates (.str weight))) := by
    apply Graph.named_kruskal_eq hg hnodes hedges hnamed
    intro e he f hf
    obtain ⟨hmode, halike⟩ | ⟨hmode, hreversed⟩ := horder
    · rw [hmode]
      exact tree.mode.prefers_alike (halike e he f hf) (halike f hf e he)
    · exact Forest.Mode.prefers_reversed hmode (hreversed e he f hf) (hreversed f hf e he)
  rw [← hsame] at hmarked
  exact ⟨_, after, after', hexec, hexec', hmarked, hmarked'⟩

/-- The ring with weights that are ordered the other way round.  On one edge the
weight is missing, where it was on another one before. -/
def ringReweighed : Graph :=
  ringForth.applied [.setAttribute .edge (.str "b") (.str "weight") (.int 5),
    .removeAttribute .edge (.str "a") (.str "weight"),
    .setAttribute .edge (.str "c") (.str "weight") (.int 7)]

theorem compute_kruskal_by_order_ring :
    ringForth.OrderedReversely (.str "weight") (.str "weight") ringReweighed
      ∧ ∃ F after after', (compute (Session.hostOfDepth 1) ⟨0⟩).exec
          ((triangleWorld .kruskal .distance).put ⟨0⟩ ringForth) = (.ok (), after)
        ∧ (compute (Session.hostOfDepth 1) ⟨0⟩).exec
          ((triangleWorld .kruskal .similarity).put ⟨0⟩ ringReweighed) = (.ok (), after')
        ∧ Marked ⟨0⟩ ⟨0⟩ (AllPassive (Session.hostOfDepth 1) .empty (fun _ _ _ => []) ⟨0⟩)
          ringForth (plainTree .kruskal .distance) "SpanningTree.flag" F after
        ∧ Marked ⟨0⟩ ⟨0⟩ (AllPassive (Session.hostOfDepth 1) .empty (fun _ _ _ => []) ⟨0⟩)
          ringReweighed (plainTree .kruskal .similarity) "SpanningTree.flag" F after' := by
  have hreversed : ringForth.OrderedReversely (.str "weight") (.str "weight") ringReweighed := by
    unfold Graph.OrderedReversely
    decide +kernel
  have hring : ringForth.Reachable := (Graph.Reachable.empty true).applied (by simp)
  exact ⟨hreversed, compute_kruskal_by_order (onlookers_allPassive _ _ _ _ _)
    (onlookers_allPassive _ _ _ _ _) (scene_put_triangleWorld .kruskal .distance ringForth)
    (scene_put_triangleWorld .kruskal .similarity ringReweighed) hring.coherent
    (hring.applied (by simp)).coherent rfl rfl (by decide +kernel) (marksBy_plainTree _ _)
    (marksBy_plainTree _ _) rfl rfl (by decide +kernel) (by decide +kernel)
    (.inr ⟨by decide, hreversed⟩)⟩

end EvolvingGraph
