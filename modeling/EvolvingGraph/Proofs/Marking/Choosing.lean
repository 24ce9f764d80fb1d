/-
  EvolvingGraph.Proofs.Marking.Choosing
  ─────────────────────────────────────
  **WHAT BECOMES OF A COMPUTATION IS SETTLED BY THE WEIGHTS ALONE.**

  While nobody interferes, resetting the marks writes one attribute of each edge
  in turn and nothing else.  The weights have another name and read as before.  So
  if all can be read, the edges that the algorithm chooses are marked; if not,
  the computation has failed before it marks a single edge.

  Main statements:
    * `WeighAlike.weightedEdges_eq` — what is offered depends on the weights of proper edges;
    * `Onlookers.exec_resetMarks_eq` — the reset, request by request;
    * `Onlookers.exec_compute_of_ok`, `Onlookers.exec_compute_of_error` — the two ends.
-/
import EvolvingGraph.Proofs.Forest.Faults
import EvolvingGraph.Proofs.Marking.Lookups
import EvolvingGraph.Proofs.Marking.SpanningForest

namespace EvolvingGraph

/-! ## §1. What is offered to a builder. -/

namespace Graph

variable {g g' : Graph} {weight : Value}

/-- Two graphs with the same nodes and edges, of which those that are no loops
have the same weights. -/
structure WeighAlike (weight : Value) (g g' : Graph) : Prop where
  nodes : g'.nodes.identifiers = g.nodes.identifiers
  edges : g'.edges = g.edges
  weights : ∀ e ∈ g.edges.entries, e.2.areEqual = false →
    g'.readAttribute .edge e.1.value weight .null = g.readAttribute .edge e.1.value weight .null

namespace WeighAlike

theorem bundleEdge_eq (h : WeighAlike weight g g') {e : EdgeEntry} (he : e ∈ g.edges.entries)
    (bundles : List Forest.Bundle) :
    g'.bundleEdge weight bundles e = g.bundleEdge weight bundles e := by
  show (if e.2.areEqual then _ else g'.edgeWeight e.1.value weight >>= _)
    = if e.2.areEqual then _ else g.edgeWeight e.1.value weight >>= _
  cases hloop : e.2.areEqual with
  | true => rfl
  | false =>
    have hweight : g'.edgeWeight e.1.value weight = g.edgeWeight e.1.value weight := by
      unfold edgeWeight
      rw [h.weights e he hloop]
    rw [hweight]

/-- The same is offered, or reading the weights fails alike. -/
theorem weightedEdges_eq (h : WeighAlike weight g g') :
    g'.weightedEdges weight = g.weightedEdges weight := by
  have hfold : g.edges.entries.foldlM (g'.bundleEdge weight) []
      = g.edges.entries.foldlM (g.bundleEdge weight) [] :=
    foldlM_congr fun _ he => h.bundleEdge_eq he
  unfold weightedEdges
  rw [h.edges, h.nodes, hfold]

theorem choose_eq (h : WeighAlike weight g g') (algorithm : Algorithm) (mode : Forest.Mode)
    (edges : List Forest.WeightedEdge) :
    g'.choose algorithm mode edges = g.choose algorithm mode edges := by
  unfold choose
  rw [h.nodes]

theorem named_eq (h : WeighAlike weight g g') (chosen : List Forest.WeightedEdge) :
    g'.named chosen = g.named chosen := by
  unfold named
  rw [h.edges]

end WeighAlike

/-- As long as no weight is written, weights stay. -/
theorem Painted.weighAlike {paint : EdgeEntry → Attributes → Attributes} {name : Identifier}
    (h : g.Painted g' paint) (hg : g.Coherent)
    (hname : ∀ e a, (paint e a).get? name.key = a.get? name.key) : WeighAlike name.value g g' where
  nodes := by rw [h.nodes]
  edges := h.edges
  weights := fun e he _ => h.readAttribute_eq hg he (hname e) .null

end Graph

/-! ## §2. Resetting the marks. -/

/-- The requests that mark every edge as one outside the tree, in order. -/
def Graph.unmarkings (graph : Graph) (tree : Tree) : List Change :=
  graph.edges.identifiers.map fun id =>
    .setAttribute .edge id.value tree.flagAttribute tree.flagOff

/-- The line that is logged when a tree is about to be computed. -/
def computingLine (graph : Graph) (tree : Tree) (id : Value) : LogEntry :=
  .computing tree.strategy tree.mode (graph.describe id)

theorem MarksBy.flag_value {tree : Tree} {g : GraphRef} {flag weight : String}
    (h : MarksBy tree g flag weight) : tree.flagAttribute = (Identifier.ofText flag).value :=
  h.flag_eq

/-- The strategy that an algorithm is chosen by. -/
def Algorithm.strategy : Algorithm → Strategy
  | .kruskal => .kruskal
  | .prim => .prim

namespace Onlookers

variable {host : Host} {g : GraphRef} {t : TreeRef} {calm : World → Prop} {graph graph' : Graph}
  {tree : Tree} {w : World} {flag weight : String} {algorithm : Algorithm}

/-- **To reset the marks is to make one request for each edge.** -/
theorem exec_resetMarks_eq (h : Onlookers host g t calm) (hw : Scene g t calm graph tree w)
    (hg : graph.Coherent) (htree : MarksBy tree g flag weight) :
    (resetMarks host t).exec w = ((graph.unmarkings tree).forM (commit host g)).exec w := by
  -- one edge after the other; in between, the edges stay those of the graph
  have hloop : (forEachEdge g (markOff host t)).exec w
      = (graph.edges.entries.forM fun e => commit host g
          (.setAttribute .edge e.1.value tree.flagAttribute tree.flagOff)).exec w := by
    refine exec_forEachEdge ?_ ?_ hw hg
    · intro w graph' hw e
      unfold markOff setOnView
      rw [Run.exec_bind, Run.exec_tree, hw.tree_eq]
    · intro w graph' hw hg e he
      obtain ⟨graph'', event, htakes, hpainted⟩ :=
        hg.painted_setAttribute he (.ofText flag) tree.flagOff
      obtain ⟨w', hcommit, hw'⟩ := h.exec_commit hw htakes
      rw [htree.flag_value, hcommit]
      exact ⟨graph'', hw', hpainted.sameShape⟩
  have hrequests : (graph.unmarkings tree).forM (commit host g)
      = graph.edges.entries.forM fun e => commit host g
          (.setAttribute .edge e.1.value tree.flagAttribute tree.flagOff) := by
    unfold Graph.unmarkings Catalog.identifiers
    rw [List.map_map]
    exact List.forM_map
  rw [hrequests, ← hloop]
  unfold resetMarks
  simp only [Run.exec_bind, Run.exec_tree, hw.tree_eq, htree.graph_eq]

/-! ## §3. The two ends of a computation. -/

theorem exec_treeItems (hw : Scene g t calm graph tree w)
    (hstrategy : tree.strategy = algorithm.strategy) :
    (treeItems host t).exec w = (chosenItems t algorithm).exec w := by
  unfold treeItems
  cases algorithm with
  | kruskal => simp [hw.tree_eq, hstrategy, Algorithm.strategy]
  | prim => simp [hw.tree_eq, hstrategy, Algorithm.strategy]

/-- While flags are written, weights stay. -/
theorem weighAlike_of_writing (hg : graph.Coherent) (htree : MarksBy tree g flag weight)
    {v : Value} {ids : List Identifier}
    (hpainted : graph.Painted graph' (Graph.writing (.ofText flag) v ids)) :
    graph.WeighAlike (.str weight) graph' := by
  have hne : (Identifier.ofText weight).key ≠ (Identifier.ofText flag).key := by
    intro heq
    exact htree.differ (Key.text.inj heq).symm
  exact hpainted.weighAlike hg (Graph.get?_writing hne v ids)

/-- While flags are written, an algorithm lists what it chooses from the graph as it was. -/
theorem exec_treeItems_of_writing (hw : Scene g t calm graph' tree w) (hg : graph.Coherent)
    (htree : MarksBy tree g flag weight) (hstrategy : tree.strategy = algorithm.strategy)
    {edges : List Forest.WeightedEdge} (hedges : graph.weightedEdges (.str weight) = .ok edges)
    {v : Value} {ids : List Identifier}
    (hpainted : graph.Painted graph' (Graph.writing (.ofText flag) v ids)) :
    (treeItems host t).exec w
      = (.ok ((graph.choose algorithm tree.mode edges).map fun c => .named c.id.value), w) := by
  have halike := weighAlike_of_writing hg htree hpainted
  rw [exec_treeItems hw hstrategy,
    exec_chosenItems hw htree (halike.weightedEdges_eq.trans hedges), halike.choose_eq]

/-- **Where all weights can be read, the edges that are chosen are marked.** -/
theorem exec_compute_of_ok (h : Onlookers host g t calm) (hw : Scene g t calm graph tree w)
    (hg : graph.Coherent) (htree : MarksBy tree g flag weight)
    (hstrategy : tree.strategy = algorithm.strategy) (hnamed : graph.NamedThroughout id)
    {edges : List Forest.WeightedEdge} (hedges : graph.weightedEdges (.str weight) = .ok edges) :
    ∃ w', (compute host t).exec w = (.ok (), w') ∧ Marked g t calm graph tree flag
      (graph.named (graph.choose algorithm tree.mode edges)) w' := by
  have hids : (graph.choose algorithm tree.mode edges).map (·.id) ⊆ graph.edges.identifiers := by
    intro id hid
    obtain ⟨c, hc, rfl⟩ := List.mem_map.1 hid
    exact Graph.known_of_weightedEdges hnamed hedges c
      (graph.choose_subset algorithm tree.mode edges hc)
  have hlisted : ∀ w' graph', Scene g t calm graph' tree w' →
      graph.Painted graph' (Graph.writing (.ofText flag) tree.flagOff graph.edges.identifiers) →
      (treeItems host t).exec w' = (.ok (((graph.choose algorithm tree.mode edges).map
        (·.id)).map (.named ·.value)), w') := by
    intro w' graph' hw' hpainted
    rw [exec_treeItems_of_writing hw' hg htree hstrategy hedges hpainted, List.map_map]
    rfl
  obtain ⟨w', graph', hexec, hscene, hpainted⟩ :=
    h.exec_computeTree hw hg htree.graph_eq htree.flag_eq hids hlisted
  refine ⟨w', hexec, List.filter_sublist, graph', hscene, ?_⟩
  exact hpainted.congr fun e he a => flagged_named _ _ he a

/-- Where no weight is bad, this is so. -/
theorem exec_compute_of_valid (h : Onlookers host g t calm) (hw : Scene g t calm graph tree w)
    (hg : graph.Coherent) (htree : MarksBy tree g flag weight)
    (hstrategy : tree.strategy = algorithm.strategy)
    (hnamed : ∀ e ∈ graph.edges.entries, e.1.key ≠ .null)
    (hvalid : ∀ e ∈ graph.edges.entries, ¬graph.HasBadWeight (.str weight) e) :
    ∃ w', (compute host t).exec w = (.ok (), w') ∧ Marked g t calm graph tree flag
      (graph.named (graph.choose algorithm tree.mode (graph.weighedCandidates (.str weight)))) w' :=
  h.exec_compute_of_ok hw hg htree hstrategy (Graph.namedThroughout_of_named hnamed)
    (hg.weightedEdges_of_valid (.ofText weight) hvalid)

/-- **Where some weight cannot be read, the marks are reset and nothing else is done.** -/
theorem exec_compute_of_error (h : Onlookers host g t calm) (hw : Scene g t calm graph tree w)
    (hg : graph.Coherent) (htree : MarksBy tree g flag weight)
    (hstrategy : tree.strategy = algorithm.strategy) {error : Error}
    (hedges : graph.weightedEdges (.str weight) = .error error) :
    ∃ w' graph', (compute host t).exec w = (.error error, w')
      ∧ ((graph.unmarkings tree).forM (commit host g)).exec
          { w with log := w.log ++ [computingLine graph tree (w.objectAt g).emitter.id] }
        = (.ok (), w')
      ∧ Scene g t calm graph' tree w'
      ∧ graph.Painted graph'
          (Graph.writing (.ofText flag) tree.flagOff graph.edges.identifiers) := by
  have hnoted := h.scene_note hw (computingLine graph tree (w.objectAt g).emitter.id)
  obtain ⟨w', graph', hreset, hw', hpainted⟩ :=
    h.exec_resetMarks hnoted hg htree.graph_eq htree.flag_value
  have hedges' := (weighAlike_of_writing hg htree hpainted).weightedEdges_eq.trans hedges
  have hitems : (treeItems host t).exec w' = (.error error, w') := by
    rw [exec_treeItems hw' hstrategy]
    unfold chosenItems Graph.spanningIds
    simp [treeGraph, hw'.tree_eq, htree.graph_eq, hw'.graph_eq, htree.weight_eq, hedges']
  refine ⟨w', graph', ?_, ?_, hw', hpainted⟩
  · unfold compute computeTree
    unfold computingLine at hreset
    simp [hw.tree_eq, htree.graph_eq, hw.graph_eq, hreset, hitems]
  · rw [← h.exec_resetMarks_eq hnoted hg htree]
    exact hreset

end Onlookers
end EvolvingGraph
