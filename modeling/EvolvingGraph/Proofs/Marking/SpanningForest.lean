/-
  EvolvingGraph.Proofs.Marking.SpanningForest
  ───────────────────────────────────────────
  **THE EDGES THAT KRUSKAL'S ALGORITHM MARKS ARE A BEST SPANNING FOREST.**

  Computing a tree with an algorithm marks the edges that the algorithm chooses
  from the candidates of the graph: resetting the flags first changes no weight
  as long as flags and weights have different names.  With edges in the order of
  their weights, the choice is a best forest, and with it the marked edges.

  Main statements:
    * `Onlookers.exec_marking` — marking a choice of candidates;
    * `compute_kruskal_marks_best_forest` — what the whole computation does.
-/
import EvolvingGraph.Proofs.Marking.Compute

namespace EvolvingGraph

/-! ## §1. Marked forests. -/

/-- A tree that marks edges of a graph by an attribute, with another one for
the weights. -/
structure MarksBy (tree : Tree) (g : GraphRef) (flag weight : String) : Prop where
  graph_eq : tree.graph = some g
  flag_eq : tree.flagAttribute = .str flag
  weight_eq : tree.weightName = .str weight
  differ : flag ≠ weight

/-- In a world, the given edges of a graph have been marked as tree edges and
all others as edges outside the tree; nothing else has been changed. -/
structure Marked (g : GraphRef) (t : TreeRef) (calm : World → Prop) (graph : Graph) (tree : Tree)
    (flag : String) (F : List EdgeEntry) (w : World) : Prop where
  sublist : F.Sublist graph.edges.entries
  scene : ∃ graph', Scene g t calm graph' tree w
    ∧ graph.Painted graph' (Onlookers.flagged tree (.ofText flag) (F.map (·.1)))

/-- A spanning forest of a graph that no other one beats: place by place its
weights, in ascending order, are at least as wanted, and so is their total. -/
structure IsOptimalForest (graph : Graph) (weight : String) (mode : Forest.Mode)
    (F : List EdgeEntry) : Prop where
  spanning : Forest.IsSpanningForest EdgeEntry.ends graph.edges.entries F
  no_loop : ∀ e ∈ F, e.2.source.key ≠ e.2.target.key
  size_eq : F.length + Forest.componentCount EdgeEntry.ends graph.edges.entries graph.nodeKeys
    = graph.nodes.size
  preferred : ∀ F', Forest.IsSpanningForest EdgeEntry.ends graph.edges.entries F' →
    List.Forall₂ (fun x y => mode.prefers x y = true)
      (Forest.ascending (F.map (graph.weightOf (.str weight))))
      (Forest.ascending (F'.map (graph.weightOf (.str weight))))
  total_preferred : ∀ F', Forest.IsSpanningForest EdgeEntry.ends graph.edges.entries F' →
    mode.PrefersTotal (Forest.total (F.map (graph.weightOf (.str weight))))
      (Forest.total (F'.map (graph.weightOf (.str weight))))

variable {graph graph' : Graph} {weight flag : String} {mode : Forest.Mode}

theorem Graph.Coherent.within_proper (hg : graph.Coherent) :
    Forest.Within EdgeEntry.ends graph.nodeKeys graph.properEdges :=
  hg.within.mono graph.properEdges_subset

/-- A best forest of the edges that are no loops is optimal. -/
theorem isOptimalForest_of_best (hg : graph.Coherent) {F : List EdgeEntry}
    (hbest : Forest.IsBestForest EdgeEntry.ends
      (fun e => mode.grade (graph.weightOf (.str weight) e)) graph.properEdges F) :
    IsOptimalForest graph weight mode F := by
  have hspanning := Graph.isSpanningForest_proper_iff.1 hbest.isSpanningForest
  have hpreferred : ∀ F', Forest.IsSpanningForest EdgeEntry.ends graph.edges.entries F' →
      List.Forall₂ (fun x y => mode.prefers x y = true)
        (Forest.ascending (F.map (graph.weightOf (.str weight))))
        (Forest.ascending (F'.map (graph.weightOf (.str weight)))) := fun F' hF' =>
    hbest.weights_preferred (Graph.isSpanningForest_proper_iff.2 hF') hg.within_proper
      graph.nodup_nodeKeys
  refine ⟨hspanning, fun e he => hspanning.acyclic.ne_of_mem he rfl, ?_, hpreferred, ?_⟩
  · rw [hspanning.length_add_componentCount hg.within graph.nodup_nodeKeys, graph.length_nodeKeys]
  · exact fun F' hF' => Forest.Mode.prefersTotal_of_forall₂ (hpreferred F' hF')

/-! ## §2. Marking a choice. -/

/-- While flags are reset the candidates stay. -/
theorem candidates_of_painted (hg : graph.Coherent) (hne : flag ≠ weight)
    (hweigh : graph.Weighable (.str weight)) {v : Value} {ids : List Identifier}
    (hpainted : graph.Painted graph' (Graph.writing (.ofText flag) v ids)) :
    graph'.weightedEdges (.str weight) = .ok (graph.candidates (.str weight)) := by
  have hname : ∀ e a, Catalog.get? (Graph.writing (.ofText flag) v ids e a)
      (Identifier.ofText weight).key = Catalog.get? a (Identifier.ofText weight).key := by
    refine Graph.get?_writing (fun heq => hne ?_) v ids
    exact (Key.text.inj heq).symm
  have hedges := Graph.weightedEdges_eq (hpainted.weighable hg hname hweigh)
  rw [hpainted.candidates_eq hg hname] at hedges
  exact hedges

namespace Onlookers

variable {host : Host} {g : GraphRef} {t : TreeRef} {calm : World → Prop} {tree : Tree} {w : World}

/-- The flags depend only on which edges have the ids. -/
theorem flagged_named (flag : Identifier) (chosen : List Forest.WeightedEdge) {e : EdgeEntry}
    (he : e ∈ graph.edges.entries) (a : Attributes) :
    flagged tree flag (chosen.map (·.id)) e a
      = flagged tree flag ((graph.named chosen).map (·.1)) e a := by
  have hiff : e.1.key ∈ (chosen.map (·.id)).map (·.key)
      ↔ e.1.key ∈ ((graph.named chosen).map (·.1)).map (·.key) := by
    rw [List.map_map, List.map_map]
    constructor
    · intro h
      obtain ⟨c, hc, hkey⟩ := List.mem_map.1 h
      exact List.mem_map.2 ⟨e, Graph.mem_named.2 ⟨he, c, hc, hkey⟩, rfl⟩
    · intro h
      obtain ⟨f, hf, hkey⟩ := List.mem_map.1 h
      obtain ⟨_, c, hc, hid⟩ := Graph.mem_named.1 hf
      exact List.mem_map.2 ⟨c, hc, hid.trans hkey⟩
  unfold flagged
  simp only [hiff]

/-- **Marking a best choice of the candidates marks an optimal forest.** -/
theorem exec_marking (h : Onlookers host g t calm) (hw : Scene g t calm graph tree w)
    (hg : graph.Coherent) (htree : MarksBy tree g flag weight)
    (hweigh : graph.Weighable (.str weight)) {chosen : List Forest.WeightedEdge}
    (hbest : Forest.IsBestForest Forest.WeightedEdge.ends (·.grade tree.mode)
      (graph.candidates (.str weight)) chosen) {build : Run (List TreeItem)}
    (hbuild : ∀ w' graph', Scene g t calm graph' tree w' →
      graph'.weightedEdges (.str weight) = .ok (graph.candidates (.str weight)) →
      graph'.nodes = graph.nodes →
      build.exec w' = (.ok (chosen.map fun c => .named c.id.value), w')) :
    ∃ w', (computeTree host t build).exec w = (.ok (), w')
      ∧ Marked g t calm graph tree flag (graph.named chosen) w'
      ∧ IsOptimalForest graph weight tree.mode (graph.named chosen) := by
  have hids : chosen.map (·.id) ⊆ graph.edges.identifiers := by
    intro id hid
    obtain ⟨c, hc, rfl⟩ := List.mem_map.1 hid
    obtain ⟨e, he, _, hid, _⟩ := Graph.exists_of_mem_candidates hg hweigh (hbest.subset hc)
    rw [hid]
    exact List.mem_map_of_mem (graph.properEdges_subset he)
  have hlisted : ∀ w' graph', Scene g t calm graph' tree w' →
      graph.Painted graph' (Graph.writing (.ofText flag) tree.flagOff graph.edges.identifiers) →
      build.exec w' = (.ok ((chosen.map (·.id)).map (.named ·.value)), w') := by
    intro w' graph' hw' hpainted
    rw [List.map_map]
    exact hbuild w' graph' hw' (candidates_of_painted hg htree.differ hweigh hpainted)
      hpainted.nodes
  obtain ⟨w', graph', hexec, hscene, hpainted⟩ :=
    h.exec_computeTree hw hg htree.graph_eq htree.flag_eq hids hlisted
  refine ⟨w', hexec, ⟨List.filter_sublist, graph', hscene, ?_⟩, ?_⟩
  · exact hpainted.congr fun e he a => flagged_named _ chosen he a
  · exact isOptimalForest_of_best hg (Graph.isBestForest_named hg hweigh hbest)

/-- An algorithm lists the ids that it chooses from the candidates. -/
theorem exec_chosenItems (hw : Scene g t calm graph' tree w) (htree : MarksBy tree g flag weight)
    {edges : List Forest.WeightedEdge} (hedges : graph'.weightedEdges (.str weight) = .ok edges)
    (algorithm : Algorithm) : (chosenItems t algorithm).exec w
      = (.ok ((graph'.choose algorithm tree.mode edges).map fun c => .named c.id.value), w) := by
  have hids : graph'.spanningIds algorithm tree.mode tree.weightName
      = .ok ((graph'.choose algorithm tree.mode edges).map (·.id.value)) := by
    unfold Graph.spanningIds
    rw [htree.weight_eq, hedges]
    rfl
  simp [chosenItems, treeGraph, hw.tree_eq, htree.graph_eq, hw.graph_eq, hids]

/-- With Kruskal's strategy, what the scan takes from the candidates is marked. -/
theorem exec_compute_kruskal (h : Onlookers host g t calm) (hw : Scene g t calm graph tree w)
    (hg : graph.Coherent) (htree : MarksBy tree g flag weight) (hkruskal : tree.strategy = .kruskal)
    (hweigh : graph.Weighable (.str weight)) {chosen : List Forest.WeightedEdge}
    (hchosen : Forest.kruskal tree.mode (graph.candidates (.str weight)) = chosen) :
    ∃ w', (compute host t).exec w = (.ok (), w')
      ∧ Marked g t calm graph tree flag (graph.named chosen) w'
      ∧ IsOptimalForest graph weight tree.mode (graph.named chosen) := by
  have hbest := Forest.isBestForest_kruskal tree.mode (Graph.nodup_candidates hg hweigh)
  rw [hchosen] at hbest
  refine h.exec_marking hw hg htree hweigh hbest ?_
  intro w' graph' hw' hedges _
  rw [treeItems_of_kruskal host t w' (by rw [hw'.tree_eq]; exact hkruskal),
    exec_chosenItems hw' htree hedges .kruskal]
  unfold Graph.choose
  rw [hchosen]

end Onlookers

/-! ## §3. Kruskal's algorithm. -/

/-- **Computing a tree by Kruskal's algorithm comes to its end and marks a
spanning forest that no other one beats.** -/
theorem compute_kruskal_marks_best_forest {host : Host} {g : GraphRef} {t : TreeRef}
    {calm : World → Prop} {tree : Tree} {w : World} (h : Onlookers host g t calm)
    (hw : Scene g t calm graph tree w) (hreachable : graph.Reachable)
    (htree : MarksBy tree g flag weight) (hkruskal : tree.strategy = .kruskal)
    (hweigh : graph.Weighable (.str weight)) :
    ∃ w' F, (compute host t).exec w = (.ok (), w') ∧ Marked g t calm graph tree flag F w'
      ∧ IsOptimalForest graph weight tree.mode F := by
  obtain ⟨w', hexec, hmarked⟩ :=
    h.exec_compute_kruskal hw hreachable.coherent htree hkruskal hweigh rfl
  exact ⟨w', _, hexec, hmarked⟩

/-- A directed triangle with one edge in both directions and a loop.  One edge
has no weight, and the weight of the loop is no number. -/
def triangle : Graph :=
  (Graph.empty true).applied
    [.addNode (.int 1), .addNode (.int 2), .addNode (.int 3),
      .addEdge (.str "out") (.int 1) (.int 2), .addEdge (.str "back") (.bool true) (.int 1),
      .addEdge (.str "home") (.int 2) (.int 1), .addEdge (.str "next") (.int 2) (.int 3),
      .addEdge (.str "round") (.int 3) (.int 1),
      .setAttribute .edge (.str "out") (.str "weight") (.int 3),
      .setAttribute .edge (.str "back") (.str "weight") (.str "heavy"),
      .setAttribute .edge (.str "home") (.str "weight") (.float .one),
      .setAttribute .edge (.str "round") (.str "weight") (.float (Real64.infinity true))]

theorem reachable_triangle : triangle.Reachable := (Graph.Reachable.empty true).applied (by simp)

/-- A tree on the first graph of a world. -/
def plainTree (strategy : Strategy) (mode : Forest.Mode) : Tree :=
  { (default : Tree) with graph := some ⟨0⟩, strategy, mode }

theorem marksBy_plainTree (strategy : Strategy) (mode : Forest.Mode) :
    MarksBy (plainTree strategy mode) ⟨0⟩ "SpanningTree.flag" "weight" :=
  ⟨rfl, rfl, rfl, by decide⟩

/-- A world with the triangle, a sink that is silent, and a tree. -/
def triangleWorld (strategy : Strategy) (mode : Forest.Mode) : World :=
  { World.initial with
    graphs := ⟨[⟨"triangle", ⟨.str "triangle", [.silent 0]⟩, triangle⟩]⟩
    trees := ⟨[plainTree strategy mode]⟩ }

theorem scene_triangleWorld (strategy : Strategy) (mode : Forest.Mode) :
    Scene ⟨0⟩ ⟨0⟩ (AllPassive (Session.hostOfDepth 1) .empty (fun _ _ _ => []) ⟨0⟩) triangle
      (plainTree strategy mode) (triangleWorld strategy mode) := by
  refine ⟨⟨Nat.one_pos, rfl, fun s hs => ?_⟩, rfl, rfl⟩
  rw [List.mem_singleton.1 hs]
  exact passive_silent 0 .empty 0

theorem weighable_triangle : triangle.Weighable (.str "weight") :=
  Graph.weighable_of_isWeighable (by decide +kernel)

theorem compute_kruskal_marks_best_forest_triangle :
    ∃ w' F, (compute (Session.hostOfDepth 1) ⟨0⟩).exec (triangleWorld .kruskal .similarity)
        = (.ok (), w')
      ∧ Marked ⟨0⟩ ⟨0⟩ (AllPassive (Session.hostOfDepth 1) .empty (fun _ _ _ => []) ⟨0⟩) triangle
        (plainTree .kruskal .similarity) "SpanningTree.flag" F w'
      ∧ IsOptimalForest triangle "weight" .similarity F :=
  compute_kruskal_marks_best_forest (onlookers_allPassive _ _ _ _ _)
    (scene_triangleWorld .kruskal .similarity) reachable_triangle
    (marksBy_plainTree .kruskal .similarity) rfl weighable_triangle

end EvolvingGraph
