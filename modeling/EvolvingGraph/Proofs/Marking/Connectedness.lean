/-
  EvolvingGraph.Proofs.Marking.Connectedness
  ──────────────────────────────────────────
  **A GRAPH IS CONNECTED IF ITS TREE HAS ONE EDGE FEWER THAN THERE ARE NODES.**

  A search over the links of a graph and the choice of a spanning forest have
  nothing in common but what they are about: the one reads the pairs of the
  network and counts nodes, the other goes through the edge table and counts
  edges.  A forest has an edge for each node but one of every component, so it is
  one edge short of the nodes exactly if there is one component; and then any
  search finds all nodes.

  Main statements:
    * `Coherent.joined_weighedCandidates_iff` — what is offered joins what the edges join;
    * `Coherent.length_named_choose` — how many edges either algorithm chooses;
    * `isConnected_agrees_with_tree` — searching, and counting the edges of a tree.
-/
import EvolvingGraph.Proofs.Graph.Search
import EvolvingGraph.Proofs.Marking.Trace

namespace EvolvingGraph

namespace Graph

variable {g : Graph} {name : Value} {a b : Key}

/-! ## §1. What is offered to a builder. -/

section Choice

variable (hg : g.Coherent) (hnamed : ∀ e ∈ g.edges.entries, e.1.key ≠ .null)

include hg hnamed

/-- An edge that is no loop is among the candidates. -/
theorem Coherent.exists_weighedCandidate {e : EdgeEntry} (he : e ∈ g.edges.entries)
    (hproper : e.2.areEqual = false) (name : Value) :
    ∃ c ∈ g.weighedCandidates name, c.ends = EdgeEntry.ends e := by
  have hperm : ((g.weighedCandidates name).map _).Perm
      ((g.weighed name g.edges.entries).map _) :=
    hg.offered_perm List.filter_sublist (fun e he => hnamed e (List.mem_of_mem_filter he)) name
  have hmem : g.weightedEntry name e ∈ g.weighed name g.edges.entries :=
    mem_weighed.2 ⟨e, he, hproper, rfl⟩
  obtain ⟨c, hc, hsame⟩ := List.mem_map.1 (hperm.mem_iff.2 (List.mem_map_of_mem hmem))
  exact ⟨c, hc, congrArg Prod.fst hsame⟩

/-- **The candidates join what the edges join.** -/
theorem Coherent.joined_weighedCandidates_iff :
    Forest.Joined Forest.WeightedEdge.ends (g.weighedCandidates name) a b
      ↔ Forest.Joined EdgeEntry.ends g.edges.entries a b := by
  constructor
  · intro h
    refine h.of_forall_joined fun c hc a b hends => ?_
    obtain ⟨e, he, -, -, hsame, -⟩ := hg.exists_of_mem_weighedCandidates hnamed hc
    exact .of_mem he (hsame ▸ hends)
  · intro h
    refine h.of_forall_joined fun e he a b hends => ?_
    cases hloop : e.2.areEqual with
    | true =>
      -- a loop joins a node to itself
      rw [EdgeEntry.ends, EdgeEntry.isLoop_iff.1 (EdgeEntry.isLoop_of_areEqual hloop), Sym2.eq_iff] at hends
      obtain ⟨ha, hb⟩ | ⟨hb, ha⟩ := hends <;> rw [← ha, ← hb] <;> exact .refl _ _ _
    | false =>
      obtain ⟨c, hc, hsame⟩ := hg.exists_weighedCandidate hnamed he hloop name
      exact .of_mem hc (hsame.trans hends)

/-! ## §2. How many are chosen. -/

/-- As many edges are named as candidates are chosen. -/
theorem Coherent.length_named {chosen : List Forest.WeightedEdge}
    (hsub : chosen ⊆ g.weighedCandidates name) (hnodup : chosen.Nodup) :
    (g.named chosen).length = chosen.length := by
  have honce : (g.named chosen).Nodup := g.edges.nodup_entries.filter _
  have hperm : (g.named chosen).Perm (chosen.map g.entryOf) := by
    rw [List.perm_ext_iff_of_nodup honce (hg.nodup_entriesOf hnamed hsub hnodup)]
    intro e
    rw [mem_named, List.mem_map]
    constructor
    · rintro ⟨he, c, hc, hkey⟩
      obtain ⟨hentry, hid, -⟩ := hg.entryOf_weighed hnamed hsub hc
      refine ⟨c, hc, Catalog.eq_of_mem_of_key_eq hentry he ?_⟩
      rw [hid]
      exact hkey
    · rintro ⟨c, hc, rfl⟩
      obtain ⟨hentry, hid, -⟩ := hg.entryOf_weighed hnamed hsub hc
      exact ⟨hentry, c, hc, by rw [hid]⟩
  rw [hperm.length_eq, List.length_map]

/-- **Either algorithm chooses an edge for each node but one of every component.** -/
theorem Coherent.length_named_choose (name : Value) (algorithm : Algorithm)
    (mode : Forest.Mode) :
    (g.named (g.choose algorithm mode (g.weighedCandidates name))).length
        + Forest.componentCount Forest.WeightedEdge.ends (g.weighedCandidates name) g.nodeKeys
      = g.nodes.size := by
  have hbest := hg.isBestForest_choose hnamed name mode algorithm
  rw [hg.length_named hnamed hbest.subset hbest.nodup, ← g.length_nodeKeys]
  exact hbest.isSpanningForest.length_add_componentCount
    (hg.within_weighedCandidates hnamed name) g.nodup_nodeKeys

/-- A choice is one edge short of the nodes if the graph is connected. -/
theorem Coherent.length_named_choose_iff (name : Value) (algorithm : Algorithm)
    (mode : Forest.Mode) :
    (g.named (g.choose algorithm mode (g.weighedCandidates name))).length + 1 = g.nodes.size
      ↔ g.Connected := by
  have hcount := hg.length_named_choose hnamed name algorithm mode
  have hone : Forest.componentCount Forest.WeightedEdge.ends (g.weighedCandidates name) g.nodeKeys
      = 1 ↔ g.Connected := by
    rw [Forest.componentCount_eq_one_iff]
    simp only [hg.joined_weighedCandidates_iff hnamed]
    exact ⟨fun h => ⟨h.1, h.2⟩, fun h => ⟨h.nonempty, h.joined⟩⟩
  rw [← hone]
  omega

end Choice
end Graph

/-! ## §3. Searching, and counting the edges of a tree. -/

/-- **A graph is said to be connected exactly if it has a node and paths of edges
join its nodes, and exactly if a search from any of them finds them all.  Where
every edge is named and no weight is bad, this is so exactly if the tree that
either algorithm marks has one edge fewer than there are nodes.** -/
theorem isConnected_agrees_with_tree {graph : Graph} (hreachable : graph.Reachable) :
    (graph.isConnected = true ↔ graph.Connected)
      ∧ (∀ start ∈ graph.nodeKeys, (∃ found, graph.Exhausts start found)
        ∧ ∀ found, graph.Exhausts start found →
          (found.length = graph.nodes.size ↔ graph.isConnected = true))
      ∧ ∀ {host : Host} {g : GraphRef} {t : TreeRef} {calm : World → Prop} {tree : Tree}
          {w : World} {flag weight : String} {algorithm : Algorithm},
        Onlookers host g t calm → Scene g t calm graph tree w → MarksBy tree g flag weight →
        tree.strategy = algorithm.strategy →
        (∀ e ∈ graph.edges.entries, e.1.key ≠ .null) →
        (∀ e ∈ graph.edges.entries, ¬graph.HasBadWeight (.str weight) e) →
        ∃ w' F, (compute host t).exec w = (.ok (), w') ∧ Marked g t calm graph tree flag F w'
          ∧ (graph.isConnected = true ↔ F.length + 1 = graph.nodes.size) := by
  have hg := hreachable.coherent
  refine ⟨hg.isConnected_iff, ?_, ?_⟩
  · intro start hstart
    refine ⟨⟨_, hg.exhausts_reachWithin hstart⟩, fun found hfound => ?_⟩
    rw [hg.length_eq_size_iff hstart hfound, hg.isConnected_iff]
  · intro host g t calm tree w flag weight algorithm h hw htree hstrategy hnamed hvalid
    obtain ⟨w', hexec, hmarked⟩ := h.exec_compute_of_valid hw hg htree hstrategy hnamed hvalid
    refine ⟨w', _, hexec, hmarked, ?_⟩
    rw [hg.length_named_choose_iff hnamed, hg.isConnected_iff]

theorem isConnected_agrees_with_tree_triangle :
    triangle.Reachable ∧ triangle.Connected
      ∧ ∃ w' F, (compute (Session.hostOfDepth 1) ⟨0⟩).exec (triangleWorld .kruskal .similarity)
          = (.ok (), w')
        ∧ Marked ⟨0⟩ ⟨0⟩ (AllPassive (Session.hostOfDepth 1) .empty (fun _ _ _ => []) ⟨0⟩)
          triangle (plainTree .kruskal .similarity) "SpanningTree.flag" F w'
        ∧ F.length + 1 = triangle.nodes.size := by
  obtain ⟨hpaths, -, htree⟩ := isConnected_agrees_with_tree reachable_triangle
  have hconnected : triangle.isConnected = true := by decide +kernel
  have hstrategy : (plainTree .kruskal .similarity).strategy = Algorithm.kruskal.strategy := rfl
  obtain ⟨w', F, hexec, hmarked, hcount⟩ := htree
    (onlookers_allPassive _ _ _ _ _) (scene_triangleWorld .kruskal .similarity)
    (marksBy_plainTree _ _) hstrategy (by decide +kernel) (by decide +kernel)
  exact ⟨reachable_triangle, hpaths.1 hconnected, w', F, hexec, hmarked, hcount.1 hconnected⟩

end EvolvingGraph
