/-
  EvolvingGraph.Proofs.Marking.Uniqueness
  ───────────────────────────────────────
  **WITH DISTINCT WEIGHTS THERE IS ONE TREE TO BE MARKED.**

  Two graphs may have the same edges though they were built in different
  orders, with their edges turned round, and with or without directions.  As
  long as no two edges that are no loops weigh the same, a tree on either of
  them marks the edges of the same ids, by whichever algorithm it chooses them.

  Main statements:
    * `Builds.exists_best` — what an algorithm lists is a best forest;
    * `named_eq_of_distinct` — best forests of both graphs have the same ids;
    * `compute_marks_same_ids` — so have the marked edges.
-/
import EvolvingGraph.Proofs.Forest.Unique
import EvolvingGraph.Proofs.Marking.Agreement

namespace EvolvingGraph

/-! ## §1. Graphs with the same edges. -/

/-- Every edge of a graph is one of the other graph, by its id: it has the same
ends, in either direction, and the same weight unless it is a loop. -/
def Repeats (weight : String) (graph graph' : Graph) : Prop :=
  ∀ e ∈ graph.edges.entries, ∃ e' ∈ graph'.edges.entries, e'.1.key = e.1.key
    ∧ EdgeEntry.ends e' = EdgeEntry.ends e ∧ (e.2.source.key ≠ e.2.target.key →
      (graph'.weightOf (.str weight) e').rank = (graph.weightOf (.str weight) e).rank)

/-- Two graphs have the same edges, up to order and direction. -/
structure SameEdges (weight : String) (graph graph' : Graph) : Prop where
  there : Repeats weight graph graph'
  back : Repeats weight graph' graph

/-- No two edges that are no loops weigh the same. -/
def DistinctWeights (weight : String) (graph : Graph) : Prop :=
  (graph.properEdges.map fun e => (graph.weightOf (.str weight) e).rank).Nodup

variable {graph graph' : Graph} {weight : String} {mode : Forest.Mode}

theorem Repeats.proper (h : Repeats weight graph graph') {e : EdgeEntry}
    (he : e ∈ graph.properEdges) : ∃ e' ∈ graph'.properEdges, e'.1.key = e.1.key
      ∧ EdgeEntry.ends e' = EdgeEntry.ends e
      ∧ (graph'.weightOf (.str weight) e').rank = (graph.weightOf (.str weight) e).rank := by
  obtain ⟨hmem, hproper⟩ := Graph.mem_properEdges.1 he
  obtain ⟨e', he', hkey, hends, hweight⟩ := h e hmem
  refine ⟨e', Graph.mem_properEdges.2 ⟨he', fun hloop => hproper ?_⟩, hkey, hends, hweight hproper⟩
  -- being a loop does not depend on the direction
  have hdiag : (EdgeEntry.ends e').IsDiag := Sym2.mk_isDiag_iff.2 hloop
  rw [hends] at hdiag
  exact Sym2.mk_isDiag_iff.1 hdiag

theorem Graph.nodup_keys_properEdges (g : Graph) : (g.properEdges.map (·.1.key)).Nodup :=
  g.edges.nodup.sublist (List.filter_sublist.map _)

/-- The grades of a mode are distinct when the weights are. -/
theorem DistinctWeights.grades (h : DistinctWeights weight graph) (mode : Forest.Mode) :
    (graph.properEdges.map fun e => mode.grade (graph.weightOf (.str weight) e)).Nodup := by
  cases mode with
  | distance => exact h
  | similarity =>
    have hneg := h.map neg_injective
    rw [List.map_map] at hneg
    exact hneg

theorem Forest.Mode.grade_eq_of_rank (mode : Forest.Mode) {x y : Real64} (h : x.rank = y.rank) :
    mode.grade x = mode.grade y := by
  cases mode <;> simp [Forest.Mode.grade, h]

/-- **Best forests of graphs with the same edges have the same ids.** -/
theorem named_eq_of_distinct (hg : graph.Coherent) (hg' : graph'.Coherent)
    (hsame : SameEdges weight graph graph') (hdistinct : DistinctWeights weight graph)
    (hweigh : graph.Weighable (.str weight)) (hweigh' : graph'.Weighable (.str weight))
    {chosen chosen' : List Forest.WeightedEdge}
    (hbest : Forest.IsBestForest Forest.WeightedEdge.ends (·.grade mode)
      (graph.candidates (.str weight)) chosen)
    (hbest' : Forest.IsBestForest Forest.WeightedEdge.ends (·.grade mode)
      (graph'.candidates (.str weight)) chosen') (k : Key) :
    k ∈ (graph.named chosen).map (·.1.key) ↔ k ∈ (graph'.named chosen').map (·.1.key) := by
  have : Nonempty EdgeEntry := ⟨.ofText "", ⟨.ofText "", .ofText ""⟩⟩
  have hnamed := Graph.isBestForest_named hg hweigh hbest
  have hnamed' := Graph.isBestForest_named hg' hweigh' hbest'
  apply hnamed.mem_map_mark_iff hnamed' (hdistinct.grades mode) graph.nodup_keys_properEdges
    graph'.nodup_keys_properEdges
  · intro e he
    obtain ⟨e', he', hkey, _⟩ := hsame.there.proper he
    exact ⟨e', he', hkey⟩
  · intro e' he'
    obtain ⟨e, he, hkey, hends, hrank⟩ := hsame.back.proper he'
    exact ⟨e, he, hkey, hends, mode.grade_eq_of_rank hrank⟩

/-! ## §2. What a tree may list. -/

/-- The ways in which a tree comes to its choice by one of the algorithms: by
the builder of its strategy, or for Prim's algorithm by any run with a heap. -/
inductive Builds (host : Host) (t : TreeRef) (tree : Tree) (graph : Graph) (weight : String) :
    Run (List TreeItem) → Prop where
  | kruskal (strategy : tree.strategy = .kruskal) :
      Builds host t tree graph weight (treeItems host t)
  | prim (strategy : tree.strategy = .prim) : Builds host t tree graph weight (treeItems host t)
  | heap (strategy : tree.strategy = .prim) {chosen : List Forest.WeightedEdge}
      (run : Forest.HeapRun tree.mode (graph.candidates (.str weight)) graph.nodeKeys ∅ [] chosen) :
      Builds host t tree graph weight (pure (chosen.map fun c => .named c.id.value))

/-- In every such way a best forest of the candidates is listed. -/
theorem Builds.exists_best {host : Host} {g : GraphRef} {t : TreeRef} {tree : Tree}
    {flag : String} {build : Run (List TreeItem)} (calm : World → Prop)
    (h : Builds host t tree graph weight build) (hg : graph.Coherent)
    (htree : MarksBy tree g flag weight) (hweigh : graph.Weighable (.str weight)) :
    ∃ chosen, Forest.IsBestForest Forest.WeightedEdge.ends (·.grade tree.mode)
        (graph.candidates (.str weight)) chosen
      ∧ ∀ w' graph', Scene g t calm graph' tree w' →
        graph'.weightedEdges (.str weight) = .ok (graph.candidates (.str weight)) →
        graph'.nodes = graph.nodes →
        build.exec w' = (.ok (chosen.map fun c => .named c.id.value), w') := by
  have hwithin := Graph.within_candidates hg hweigh
  cases h with
  | kruskal strategy =>
    refine ⟨_, Forest.isBestForest_kruskal tree.mode (Graph.nodup_candidates hg hweigh), ?_⟩
    intro w' graph' hw' hedges _
    rw [treeItems_of_kruskal host t w' (by rw [hw'.tree_eq]; exact strategy),
      Onlookers.exec_chosenItems hw' htree hedges .kruskal]
    rfl
  | prim strategy =>
    refine ⟨_, (Forest.growth_prim hwithin).isBestForest hwithin, ?_⟩
    intro w' graph' hw' hedges hnodes
    have hitems : (treeItems host t).exec w' = (chosenItems t .prim).exec w' := by
      simp [treeItems, hw'.tree_eq, strategy]
    rw [hitems, Onlookers.exec_chosenItems hw' htree hedges .prim]
    unfold Graph.choose Graph.nodeKeys
    rw [hnodes]
  | heap strategy run => exact ⟨_, run.isBestForest hwithin, fun _ _ _ _ _ => rfl⟩

/-! ## §3. The marked edges. -/

/-- **Trees on two graphs with the same edges mark edges of the same ids, if no
two of their weights are the same.**  Each of the trees may use its own way to
choose them. -/
theorem compute_marks_same_ids {host host' : Host} {g g' : GraphRef} {t t' : TreeRef}
    {calm calm' : World → Prop} {tree tree' : Tree} {w w' : World} {flag flag' : String}
    {build build' : Run (List TreeItem)}
    (h : Onlookers host g t calm) (h' : Onlookers host' g' t' calm')
    (hw : Scene g t calm graph tree w) (hw' : Scene g' t' calm' graph' tree' w')
    (hreachable : graph.Reachable) (hreachable' : graph'.Reachable)
    (htree : MarksBy tree g flag weight) (htree' : MarksBy tree' g' flag' weight)
    (hmode : tree'.mode = tree.mode) (hbuild : Builds host t tree graph weight build)
    (hbuild' : Builds host' t' tree' graph' weight build')
    (hweigh : graph.Weighable (.str weight)) (hweigh' : graph'.Weighable (.str weight))
    (hsame : SameEdges weight graph graph') (hdistinct : DistinctWeights weight graph) :
    ∃ F F' after after', (computeTree host t build).exec w = (.ok (), after)
      ∧ (computeTree host' t' build').exec w' = (.ok (), after')
      ∧ Marked g t calm graph tree flag F after ∧ Marked g' t' calm' graph' tree' flag' F' after'
      ∧ ∀ k, k ∈ F.map (·.1.key) ↔ k ∈ F'.map (·.1.key) := by
  have hg := hreachable.coherent
  have hg' := hreachable'.coherent
  obtain ⟨chosen, hbest, hlist⟩ := hbuild.exists_best calm hg htree hweigh
  obtain ⟨chosen', hbest', hlist'⟩ := hbuild'.exists_best calm' hg' htree' hweigh'
  obtain ⟨after, hexec, hmarked, _⟩ := h.exec_marking hw hg htree hweigh hbest hlist
  obtain ⟨after', hexec', hmarked', _⟩ := h'.exec_marking hw' hg' htree' hweigh' hbest' hlist'
  refine ⟨_, _, after, after', hexec, hexec', hmarked, hmarked', fun k => ?_⟩
  rw [hmode] at hbest'
  exact named_eq_of_distinct hg hg' hsame hdistinct hweigh hweigh' hbest hbest' k

/-- A directed ring of three nodes with a loop. -/
def ringForth : Graph :=
  (Graph.empty true).applied
    [.addNode (.int 1), .addNode (.int 2), .addNode (.int 3), .addEdge (.str "a") (.int 1) (.int 2),
      .addEdge (.str "b") (.int 2) (.int 3), .addEdge (.str "c") (.int 3) (.int 1),
      .addEdge (.str "round") (.int 3) (.int 3),
      .setAttribute .edge (.str "a") (.str "weight") (.int 3),
      .setAttribute .edge (.str "c") (.str "weight") (.float (Real64.infinity true))]

/-- The same ring without directions, built the other way round. -/
def ringBack : Graph :=
  (Graph.empty false).applied
    [.addNode (.int 3), .addEdge (.str "round") (.int 3) (.int 3), .addNode (.int 2),
      .addEdge (.str "b") (.int 3) (.int 2), .setAttribute .edge (.str "b") (.str "weight") (.int 1),
      .addNode (.bool true), .addEdge (.str "a") (.int 2) (.int 1),
      .addEdge (.str "c") (.int 1) (.int 3),
      .setAttribute .edge (.str "c") (.str "weight") (.float (Real64.infinity true)),
      .setAttribute .edge (.str "a") (.str "weight") (.int 3)]

theorem sameEdges_ring : SameEdges "weight" ringForth ringBack := by
  constructor <;> (unfold Repeats; decide +kernel)

/-- The world of the triangle, with another graph in its place. -/
theorem scene_put_triangleWorld (strategy : Strategy) (mode : Forest.Mode) (graph : Graph) :
    Scene ⟨0⟩ ⟨0⟩ (AllPassive (Session.hostOfDepth 1) .empty (fun _ _ _ => []) ⟨0⟩) graph
      (plainTree strategy mode) ((triangleWorld strategy mode).put ⟨0⟩ graph) := by
  have hscene := scene_triangleWorld strategy mode
  refine ⟨(onlookers_allPassive _ _ _ _ ⟨0⟩).put _ graph hscene.atRest, ?_, hscene.tree_eq⟩
  rw [World.objectAt_put_self hscene.atRest.1]

theorem compute_marks_same_ids_ring :
    ∃ F F' after after', (compute (Session.hostOfDepth 1) ⟨0⟩).exec
        ((triangleWorld .kruskal .distance).put ⟨0⟩ ringForth) = (.ok (), after)
      ∧ (compute (Session.hostOfDepth 1) ⟨0⟩).exec
        ((triangleWorld .prim .distance).put ⟨0⟩ ringBack) = (.ok (), after')
      ∧ Marked ⟨0⟩ ⟨0⟩ (AllPassive (Session.hostOfDepth 1) .empty (fun _ _ _ => []) ⟨0⟩) ringForth
        (plainTree .kruskal .distance) "SpanningTree.flag" F after
      ∧ Marked ⟨0⟩ ⟨0⟩ (AllPassive (Session.hostOfDepth 1) .empty (fun _ _ _ => []) ⟨0⟩) ringBack
        (plainTree .prim .distance) "SpanningTree.flag" F' after'
      ∧ ∀ k, k ∈ F.map (·.1.key) ↔ k ∈ F'.map (·.1.key) :=
  compute_marks_same_ids (onlookers_allPassive _ _ _ _ _) (onlookers_allPassive _ _ _ _ _)
    (scene_put_triangleWorld .kruskal .distance ringForth)
    (scene_put_triangleWorld .prim .distance ringBack)
    ((Graph.Reachable.empty true).applied (by simp))
    ((Graph.Reachable.empty false).applied (by simp))
    (marksBy_plainTree _ _) (marksBy_plainTree _ _) rfl (.kruskal rfl) (.prim rfl)
    (Graph.weighable_of_isWeighable (by decide +kernel))
    (Graph.weighable_of_isWeighable (by decide +kernel)) sameEdges_ring
    (by unfold DistinctWeights; decide +kernel)

end EvolvingGraph
