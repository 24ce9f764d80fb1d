/-
  EvolvingGraph.Proofs.Marking.Agreement
  ──────────────────────────────────────
  **PRIM'S AND KRUSKAL'S ALGORITHMS MARK FORESTS OF THE SAME WEIGHTS.**

  Trees grown with a heap may begin at any node and take equal edges in any
  order; whichever edges such a run takes, marking them marks a spanning forest.
  Both algorithms choose best forests, and all best forests have the same
  grades: edge for edge the marked weights are the same numbers.

  Main statements:
    * `sameWeights_of_best` — best forests weigh the same;
    * `prim_agrees_with_kruskal` — for the builder, and for every run with a heap.
-/
import EvolvingGraph.Proofs.Forest.Frontier
import EvolvingGraph.Proofs.Marking.SpanningForest

namespace EvolvingGraph

/-! ## §1. Equal weights. -/

/-- Two lists of edges have the same weights, as numbers and with multiplicity. -/
def SameWeights (graph : Graph) (weight : String) (F K : List EdgeEntry) : Prop :=
  (F.map fun e => (graph.weightOf (.str weight) e).rank).Perm
    (K.map fun e => (graph.weightOf (.str weight) e).rank)

variable {graph : Graph} {weight : String} {mode : Forest.Mode}

/-- Choices that are best forests of the candidates name edges of the same weights. -/
theorem sameWeights_of_best (hg : graph.Coherent) (hweigh : graph.Weighable (.str weight))
    {chosen chosen' : List Forest.WeightedEdge}
    (h : Forest.IsBestForest Forest.WeightedEdge.ends (·.grade mode)
      (graph.candidates (.str weight)) chosen)
    (h' : Forest.IsBestForest Forest.WeightedEdge.ends (·.grade mode)
      (graph.candidates (.str weight)) chosen') :
    SameWeights graph weight (graph.named chosen) (graph.named chosen') := by
  have hgrades := (Graph.isBestForest_named hg hweigh h).perm_grades
    (Graph.isBestForest_named hg hweigh h') hg.within_proper graph.nodup_nodeKeys
  unfold SameWeights
  cases mode with
  | distance => exact hgrades
  | similarity =>
    have hranks := hgrades.map fun n => -n
    rw [List.map_map, List.map_map] at hranks
    simpa [Function.comp_def, Forest.Mode.grade] using hranks

/-- What is claimed of the edges that Prim's algorithm marks: a spanning forest
with the weights of the other one. -/
structure Agrees (graph : Graph) (weight : String) (K F : List EdgeEntry) : Prop where
  spanning : Forest.IsSpanningForest EdgeEntry.ends graph.edges.entries F
  no_loop : ∀ e ∈ F, e.2.source.key ≠ e.2.target.key
  weights : SameWeights graph weight F K

/-! ## §2. The two algorithms. -/

namespace Onlookers

variable {host : Host} {g : GraphRef} {t : TreeRef} {calm : World → Prop} {tree : Tree} {w : World}
  {flag : String}

/-- Whatever best choice is marked, it agrees with any other one. -/
theorem exec_agreeing (h : Onlookers host g t calm) (hw : Scene g t calm graph tree w)
    (hg : graph.Coherent) (htree : MarksBy tree g flag weight)
    (hweigh : graph.Weighable (.str weight)) {chosen chosen' : List Forest.WeightedEdge}
    (hbest : Forest.IsBestForest Forest.WeightedEdge.ends (·.grade tree.mode)
      (graph.candidates (.str weight)) chosen)
    (hbest' : Forest.IsBestForest Forest.WeightedEdge.ends (·.grade tree.mode)
      (graph.candidates (.str weight)) chosen') {build : Run (List TreeItem)}
    (hbuild : ∀ w' graph', Scene g t calm graph' tree w' →
      graph'.weightedEdges (.str weight) = .ok (graph.candidates (.str weight)) →
      graph'.nodes = graph.nodes →
      build.exec w' = (.ok (chosen.map fun c => .named c.id.value), w')) :
    ∃ w', (computeTree host t build).exec w = (.ok (), w')
      ∧ Marked g t calm graph tree flag (graph.named chosen) w'
      ∧ Agrees graph weight (graph.named chosen') (graph.named chosen) := by
  obtain ⟨w', hexec, hmarked, hoptimal⟩ := h.exec_marking hw hg htree hweigh hbest hbuild
  exact ⟨w', hexec, hmarked, hoptimal.spanning, hoptimal.no_loop,
    sameWeights_of_best hg hweigh hbest hbest'⟩

end Onlookers

/-- **Prim's algorithm marks a spanning forest that has the weights of the one
that Kruskal's algorithm marks: both when the builder chooses and when any run
with a heap does.** -/
theorem prim_agrees_with_kruskal {host : Host} {g : GraphRef} {t t' : TreeRef}
    {calm calm' : World → Prop} {tree tree' : Tree} {w w' : World} {flag flag' : String}
    (h : Onlookers host g t calm) (h' : Onlookers host g t' calm')
    (hw : Scene g t calm graph tree w) (hw' : Scene g t' calm' graph tree' w')
    (hreachable : graph.Reachable) (htree : MarksBy tree g flag weight)
    (htree' : MarksBy tree' g flag' weight) (hkruskal : tree.strategy = .kruskal)
    (hprim : tree'.strategy = .prim) (hmode : tree'.mode = tree.mode)
    (hweigh : graph.Weighable (.str weight)) :
    ∃ K after, (compute host t).exec w = (.ok (), after)
      ∧ Marked g t calm graph tree flag K after
      ∧ (∃ F after', (compute host t').exec w' = (.ok (), after')
        ∧ Marked g t' calm' graph tree' flag' F after' ∧ Agrees graph weight K F)
      ∧ ∀ chosen, Forest.HeapRun tree.mode (graph.candidates (.str weight)) graph.nodeKeys ∅ []
          chosen →
        ∃ after', (computeTree host t' (pure (chosen.map fun c => .named c.id.value))).exec w'
            = (.ok (), after')
          ∧ Marked g t' calm' graph tree' flag' (graph.named chosen) after'
          ∧ Agrees graph weight K (graph.named chosen) := by
  have hg := hreachable.coherent
  have hwithin := Graph.within_candidates hg hweigh
  have hscan := Forest.isBestForest_kruskal tree'.mode (Graph.nodup_candidates hg hweigh)
  obtain ⟨after, hexec, hmarked, _⟩ :=
    h.exec_compute_kruskal hw hg htree hkruskal hweigh (congrArg (Forest.kruskal · _) hmode.symm)
  refine ⟨_, after, hexec, hmarked, ?_, fun chosen hrun => ?_⟩
  · have hgrown : Forest.IsBestForest _ _ _ (Forest.prim tree'.mode _ _) :=
      (Forest.growth_prim hwithin).isBestForest hwithin
    obtain ⟨after', hprimed⟩ := h'.exec_agreeing hw' hg htree' hweigh hgrown hscan (by
      intro w₁ graph₁ hw₁ hedges hnodes
      have hitems : (treeItems host t').exec w₁ = (chosenItems t' .prim).exec w₁ := by
        simp [treeItems, hw₁.tree_eq, hprim]
      rw [hitems, Onlookers.exec_chosenItems hw₁ htree' hedges .prim]
      unfold Graph.choose Graph.nodeKeys
      rw [hnodes])
    exact ⟨_, after', hprimed⟩
  · rw [← hmode] at hrun
    exact h'.exec_agreeing hw' hg htree' hweigh (hrun.isBestForest hwithin) hscan
      fun _ _ _ _ _ => rfl

/-- Two trees on the triangle, one for each algorithm, with large weights wanted. -/
theorem prim_agrees_with_kruskal_triangle :
    ∃ K after, (compute (Session.hostOfDepth 1) ⟨0⟩).exec (triangleWorld .kruskal .similarity)
        = (.ok (), after)
      ∧ Marked ⟨0⟩ ⟨0⟩ (AllPassive (Session.hostOfDepth 1) .empty (fun _ _ _ => []) ⟨0⟩) triangle
        (plainTree .kruskal .similarity) "SpanningTree.flag" K after
      ∧ (∃ F after', (compute (Session.hostOfDepth 1) ⟨0⟩).exec (triangleWorld .prim .similarity)
          = (.ok (), after')
        ∧ Marked ⟨0⟩ ⟨0⟩ (AllPassive (Session.hostOfDepth 1) .empty (fun _ _ _ => []) ⟨0⟩) triangle
          (plainTree .prim .similarity) "SpanningTree.flag" F after'
        ∧ Agrees triangle "weight" K F) := by
  obtain ⟨K, after, hexec, hmarked, hagrees, _⟩ := prim_agrees_with_kruskal
    (onlookers_allPassive _ _ _ _ _) (onlookers_allPassive _ _ _ _ _)
    (scene_triangleWorld .kruskal .similarity) (scene_triangleWorld .prim .similarity)
    reachable_triangle (marksBy_plainTree _ _) (marksBy_plainTree _ _) rfl rfl rfl
    weighable_triangle
  exact ⟨K, after, hexec, hmarked, hagrees⟩

end EvolvingGraph
