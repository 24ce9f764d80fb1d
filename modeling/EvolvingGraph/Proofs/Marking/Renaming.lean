/-
  EvolvingGraph.Proofs.Marking.Renaming
  ─────────────────────────────────────
  **A TREE DOES NOT DEPEND ON WHAT THE EDGES ARE CALLED.**

  Two graphs that differ in the ids of their edges only are marked alike by
  Kruskal's algorithm, also where it fails: for a weight that is no number, or a
  flag that cannot be the name of an attribute.  There is one exception.  Among
  edges that are bundled, one with "nothing" for an id goes by a number, and the
  number is then looked up as if it were an id.

  Main statements:
    * `Counterparts.paired_compute` — both computations go alike, step by step;
    * `compute_kruskal_renamed` — so they end alike, with the same edges marked;
    * `compute_kruskal_without_id` — the exception.
-/
import EvolvingGraph.Proofs.Graph.Renaming
import EvolvingGraph.Proofs.Marking.Uniqueness

namespace EvolvingGraph

/-! ## §1. Changes while nobody interferes. -/

/-- Whatever comes of a change to the graph comes of it in the world. -/
theorem Onlookers.exec_commit_apply {host : Host} {g : GraphRef} {t : TreeRef}
    {calm : World → Prop} {graph : Graph} {tree : Tree} {w : World} (h : Onlookers host g t calm)
    (hw : Scene g t calm graph tree w) (c : Change) :
    ∃ w', (commit host g c).exec w = ((graph.apply c).2.map fun _ => (), w')
      ∧ Scene g t calm (graph.apply c).1 tree w' := by
  have hput : ∀ graph', Scene g t calm graph' tree (w.put g graph') := by
    intro graph'
    refine ⟨h.put w graph' hw.atRest, ?_, hw.tree_eq⟩
    rw [World.objectAt_put_self (h.present w hw.atRest)]
  rcases happly : graph.apply c with ⟨graph', e | _ | event⟩
  · refine ⟨w.put g graph', ?_, hput graph'⟩
    rw [EvolvingGraph.exec_commit, hw.graph_eq, happly]
    rfl
  · refine ⟨w.put g graph', ?_, hput graph'⟩
    rw [EvolvingGraph.exec_commit, hw.graph_eq, happly]
    rfl
  · exact h.exec_commit hw (Graph.apply_eq_some_iff.1 happly)

/-! ## §2. Worlds with graphs that differ in ids. -/

/-- Two trees with the same configuration, each on a graph of its own. -/
structure SameConfiguration (tree tree' : Tree) (g g' : GraphRef) : Prop where
  graph_eq : tree.graph = some g
  graph_eq' : tree'.graph = some g'
  flag : tree'.flagAttribute = tree.flagAttribute
  on : tree'.flagOn = tree.flagOn
  off : tree'.flagOff = tree.flagOff
  weight : tree'.weightName = tree.weightName
  mode : tree'.mode = tree.mode
  strategy : tree'.strategy = tree.strategy

/-- Two trees on graphs of which the second has other edge ids; the edges of the
first graph are given. -/
structure Counterparts where
  rename : Identifier → Identifier
  edges : Catalog Endpoints
  g : GraphRef
  g' : GraphRef
  t : TreeRef
  t' : TreeRef
  calm : World → Prop
  calm' : World → Prop
  tree : Tree
  tree' : Tree

namespace Counterparts

/-- Two worlds, each with one of the graphs and one of the trees. -/
structure Related (c : Counterparts) (w w' : World) : Prop where
  here : Scene c.g c.t c.calm (w.objectAt c.g).graph c.tree w
  there : Scene c.g' c.t' c.calm' (w'.objectAt c.g').graph c.tree' w'
  renamed : Graph.Renamed c.rename (w.objectAt c.g).graph (w'.objectAt c.g').graph
  edges_eq : (w.objectAt c.g).graph.edges = c.edges

/-- The sinks of both graphs only look on, and both trees are configured alike. -/
structure Undisturbed (c : Counterparts) (host host' : Host) : Prop where
  here : Onlookers host c.g c.t c.calm
  there : Onlookers host' c.g' c.t' c.calm'
  same : SameConfiguration c.tree c.tree' c.g c.g'

/-- Two operations go alike, one in each of the worlds. -/
abbrev Paired {α β : Type} (c : Counterparts) (x : Run α) (results : α → β → Prop) (y : Run β) :
    Prop := Run.Paired c.Related Graph.anyReasons x results y

variable {c : Counterparts} {host host' : Host}

theorem Related.mem {w w' : World} (hw : c.Related w w') {e : EdgeEntry}
    (he : e ∈ c.edges.entries) : e ∈ (w.objectAt c.g).graph.edges.entries := by
  rw [hw.edges_eq]
  exact he

/-! ## §3. Reading. -/

theorem paired_graph : c.Paired (World.graph c.g)
    (fun graph graph' => graph.edges = c.edges ∧ Graph.Renamed c.rename graph graph')
    (World.graph c.g') := fun _ _ hw => ⟨hw, .ok ⟨hw.edges_eq, hw.renamed⟩⟩

theorem paired_tree :
    c.Paired (World.tree c.t) (fun a b => a = c.tree ∧ b = c.tree') (World.tree c.t') :=
  fun _ _ hw => ⟨hw, .ok ⟨hw.here.tree_eq, hw.there.tree_eq⟩⟩

theorem paired_treeGraph (hsame : SameConfiguration c.tree c.tree' c.g c.g') :
    c.Paired (treeGraph c.t) (fun a b => a = c.g ∧ b = c.g') (treeGraph c.t') := by
  unfold treeGraph
  refine paired_tree.bind ?_
  rintro _ _ ⟨rfl, rfl⟩
  rw [hsame.graph_eq, hsame.graph_eq']
  exact .pure ⟨rfl, rfl⟩

/-- Kruskal's algorithm lists the same edges. -/
theorem paired_treeItems (hsame : SameConfiguration c.tree c.tree' c.g c.g')
    (hkruskal : c.tree.strategy = .kruskal)
    (hnamed : ∀ e ∈ c.edges.entries, e.2.areEqual = false →
      e.1.key ≠ .null ∧ (c.rename e.1).key ≠ .null) :
    c.Paired (treeItems host c.t)
      (fun items items' => ∃ chosen : List Identifier, chosen ⊆ c.edges.identifiers
        ∧ items = chosen.map (.named ·.value)
        ∧ items' = chosen.map fun id => .named (c.rename id).value)
      (treeItems host' c.t') := by
  have hlisted : c.Paired
      (do
        let graph ← World.graph c.g
        let ids ← Run.ofExcept (graph.spanningIds .kruskal c.tree.mode c.tree.weightName)
        return ids.map TreeItem.named)
      (fun items items' => ∃ chosen : List Identifier, chosen ⊆ c.edges.identifiers
        ∧ items = chosen.map (.named ·.value)
        ∧ items' = chosen.map fun id => .named (c.rename id).value)
      (do
        let graph ← World.graph c.g'
        let ids ← Run.ofExcept (graph.spanningIds .kruskal c.tree.mode c.tree.weightName)
        return ids.map TreeItem.named) := by
    refine paired_graph.bind ?_
    rintro graph graph' ⟨hedges, hrenamed⟩
    rw [← hedges] at hnamed ⊢
    refine (Run.Paired.ofExcept
      (hrenamed.spanningIds hnamed c.tree.mode c.tree.weightName)).bind ?_
    rintro _ _ ⟨chosen, hsub, rfl, rfl⟩
    refine .pure ⟨chosen, hsub, ?_, ?_⟩
    · rw [List.map_map]
      rfl
    · rw [List.map_map]
      rfl
  refine hlisted.of_exec ?_ ?_
  · intro w w' hw
    simp [treeItems, hw.here.tree_eq, hkruskal, chosenItems, treeGraph, hsame.graph_eq]
  · intro w w' hw
    simp [treeItems, hw.there.tree_eq, hsame.strategy, hkruskal, chosenItems, treeGraph,
      hsame.graph_eq', hsame.mode, hsame.weight]

/-! ## §4. Writing. -/

theorem paired_note (h : c.Undisturbed host host') (entry entry' : LogEntry) :
    c.Paired (World.note entry) (fun _ _ => True) (World.note entry') :=
  fun _ _ hw => ⟨⟨h.here.scene_note hw.here entry, h.there.scene_note hw.there entry', hw.renamed,
    hw.edges_eq⟩, .ok trivial⟩

/-- An edge is written alike in both worlds, through any views of it. -/
theorem paired_setOnView (h : c.Undisturbed host host') {e : EdgeEntry} (he : e ∈ c.edges.entries)
    (source target source' target' name v : Value) :
    c.Paired (setOnView host ⟨c.g, e.1.value, source, target⟩ name v) (fun _ _ => True)
      (setOnView host' ⟨c.g', (c.rename e.1).value, source', target'⟩ name v) := by
  intro w w' hw
  obtain ⟨hrenamed, hedges, halike⟩ := hw.renamed.apply_setAttribute (hw.mem he) name v
  obtain ⟨after, hexec, hscene⟩ :=
    h.here.exec_commit_apply hw.here (.setAttribute .edge e.1.value name v)
  obtain ⟨after', hexec', hscene'⟩ :=
    h.there.exec_commit_apply hw.there (.setAttribute .edge (c.rename e.1).value name v)
  rw [← hscene.graph_eq, ← hscene'.graph_eq] at hrenamed
  rw [← hscene.graph_eq] at hedges
  unfold setOnView
  rw [hexec, hexec']
  refine ⟨⟨?_, ?_, hrenamed, hedges.trans hw.edges_eq⟩, halike.discarded⟩
  · rw [hscene.graph_eq]
    exact hscene
  · rw [hscene'.graph_eq]
    exact hscene'

/-- All edges are written as edges outside the tree. -/
theorem paired_resetMarks (h : c.Undisturbed host host') :
    c.Paired (resetMarks host c.t) (fun _ _ => True) (resetMarks host' c.t') := by
  have hloop : c.Paired (forEachEdge c.g (markOff host c.t)) (fun _ _ => True)
      (forEachEdge c.g' (markOff host' c.t')) := by
    unfold forEachEdge
    refine paired_graph.bind ?_
    rintro graph graph' ⟨hedges, hrenamed⟩
    have hids : List.Forall₂ (fun id id' => ∃ e ∈ c.edges.entries, id = e.1 ∧ id' = c.rename e.1)
        graph.edges.identifiers graph'.edges.identifiers := by
      unfold Catalog.identifiers
      rw [hrenamed.edges, hedges, List.map_map, List.forall₂_map_left_iff,
        List.forall₂_map_right_iff]
      exact List.forall₂_same.2 fun e he => ⟨e, he, rfl, rfl⟩
    refine .forM hids ?_
    rintro _ _ ⟨e, he, rfl, rfl⟩
    refine (paired_setOnView h he e.2.source.value e.2.target.value e.2.source.value
      e.2.target.value c.tree.flagAttribute c.tree.flagOff).of_exec ?_ ?_
    · intro w w' hw
      simp [Catalog.contains_of_mem (hw.mem he), Onlookers.view_eq (hw.mem he), markOff,
        hw.here.tree_eq]
    · intro w w' hw
      have hmem := hw.renamed.mem (hw.mem he)
      simp [Catalog.contains_of_mem hmem, Onlookers.view_eq hmem, markOff, hw.there.tree_eq,
        h.same.flag, h.same.off]
  refine hloop.of_exec ?_ ?_
  · intro w w' hw
    simp [resetMarks, hw.here.tree_eq, h.same.graph_eq]
  · intro w w' hw
    simp [resetMarks, hw.there.tree_eq, h.same.graph_eq']

/-- The chosen edges are marked alike. -/
theorem paired_markItems (h : c.Undisturbed host host') {chosen : List Identifier}
    (hsub : chosen ⊆ c.edges.identifiers) :
    c.Paired (markItems host c.t (chosen.map (.named ·.value))) (fun _ _ => True)
      (markItems host' c.t' (chosen.map fun id => .named (c.rename id).value)) := by
  induction chosen with
  | nil => exact .pure trivial
  | cons id rest ih =>
    rw [List.cons_subset] at hsub
    obtain ⟨e, he, rfl⟩ := List.mem_map.1 hsub.1
    have hfirst := paired_setOnView h he e.2.source.value e.2.target.value e.2.source.value
      e.2.target.value c.tree.flagAttribute c.tree.flagOn
    -- the number of marked edges is counted on the way
    have hrest : c.Paired (do return (← markItems host c.t (rest.map (.named ·.value))) + 1)
        (fun _ _ => True)
        (do return (← markItems host' c.t' (rest.map fun id => .named (c.rename id).value)) + 1) :=
      (ih hsub.2).bind fun _ _ _ => .pure trivial
    refine (hfirst.bind fun _ _ _ => hrest).of_exec ?_ ?_
    · intro w w' hw
      simp [markItems, resolveItem, lookUp, treeGraph, hw.here.tree_eq, h.same.graph_eq,
        Onlookers.view_eq (hw.mem he), markOn]
    · intro w w' hw
      simp [markItems, resolveItem, lookUp, treeGraph, hw.there.tree_eq, h.same.graph_eq',
        Onlookers.view_eq (hw.renamed.mem (hw.mem he)), markOn, h.same.flag, h.same.on]

/-- **The whole computation goes alike.** -/
theorem paired_compute (h : c.Undisturbed host host') (hkruskal : c.tree.strategy = .kruskal)
    (hnamed : ∀ e ∈ c.edges.entries, e.2.areEqual = false →
      e.1.key ≠ .null ∧ (c.rename e.1).key ≠ .null) :
    c.Paired (compute host c.t) (fun _ _ => True) (compute host' c.t') := by
  have hobjects : c.Paired (World.graphObject c.g) (fun _ _ => True) (World.graphObject c.g') :=
    fun _ _ hw => ⟨hw, .ok trivial⟩
  unfold compute computeTree
  refine paired_tree.bind ?_
  rintro _ _ ⟨rfl, rfl⟩
  rw [h.same.graph_eq, h.same.graph_eq']
  refine hobjects.bind fun _ _ _ => ?_
  refine (paired_note h _ _).bind fun _ _ _ => ?_
  refine (paired_resetMarks h).bind fun _ _ _ => ?_
  refine (paired_treeItems h.same hkruskal hnamed).bind ?_
  rintro _ _ ⟨chosen, hsub, rfl, rfl⟩
  refine (paired_markItems h hsub).bind fun _ _ _ => ?_
  refine (paired_treeGraph h.same).bind ?_
  rintro _ _ ⟨rfl, rfl⟩
  exact paired_graph.bind fun _ _ _ => paired_note h _ _

end Counterparts

/-! ## §5. The two runs. -/

/-- Two graphs as two computations that went alike leave them: the edges of both
have the same attributes, and those that are tree edges of the one are tree edges
of the other. -/
structure MarkedAlike (r : Identifier → Identifier) (graph final final' : Graph)
    (tree tree' : Tree) : Prop where
  edges_eq : final.edges = graph.edges
  renamed : Graph.Renamed r final final'
  marked : ∀ e ∈ graph.edges.entries,
    isMarked tree' final' (r e.1).value = isMarked tree final e.1.value

/-- **Whatever the edges are called, Kruskal's algorithm completes or fails, and
it marks the same edges, as long as no edge between different nodes has "nothing"
for an id.** -/
theorem compute_kruskal_renamed {r : Identifier → Identifier} {host host' : Host}
    {g g' : GraphRef} {t t' : TreeRef} {calm calm' : World → Prop} {tree tree' : Tree}
    {graph graph' : Graph} {w w' : World} (h : Onlookers host g t calm)
    (h' : Onlookers host' g' t' calm') (hw : Scene g t calm graph tree w)
    (hw' : Scene g' t' calm' graph' tree' w') (hrenamed : Graph.Renamed r graph graph')
    (hnamed : Graph.NamedThroughout r graph) (hsame : SameConfiguration tree tree' g g')
    (hkruskal : tree.strategy = .kruskal) :
    ∃ result result' after after' final final', (compute host t).exec w = (result, after)
      ∧ (compute host' t').exec w' = (result', after') ∧ (result' = .ok () ↔ result = .ok ())
      ∧ Scene g t calm final tree after ∧ Scene g' t' calm' final' tree' after'
      ∧ MarkedAlike r graph final final' tree tree' := by
  let c : Counterparts := ⟨r, graph.edges, g, g', t, t', calm, calm', tree, tree'⟩
  have hrelated : c.Related w w' := by
    refine ⟨?_, ?_, ?_, ?_⟩ <;> simp only [c, hw.graph_eq, hw'.graph_eq]
    · exact hw
    · exact hw'
    · exact hrenamed
  have hundisturbed : c.Undisturbed host host' := ⟨h, h', hsame⟩
  obtain ⟨hafter, halike⟩ :=
    Counterparts.paired_compute hundisturbed hkruskal hnamed w w' hrelated
  refine ⟨_, _, _, _, _, _, rfl, rfl, halike.ok_iff, hafter.here, hafter.there, hafter.edges_eq,
    hafter.renamed, fun e he => ?_⟩
  unfold isMarked
  rw [hafter.renamed.edgeAttributes_eq (hafter.mem he), hsame.flag, hsame.on]

/-- Each edge of the ring under a pair for an id. -/
def ringOfPairs : Graph :=
  { ringForth with edges :=
      ⟨ringForth.edges.entries.map fun e => (.pair e.1 e.1, e.2), by decide +kernel⟩ }

theorem compute_kruskal_renamed_ring :
    ∃ result result' after after' final final',
      (compute (Session.hostOfDepth 1) ⟨0⟩).exec
        ((triangleWorld .kruskal .similarity).put ⟨0⟩ ringForth) = (result, after)
      ∧ (compute (Session.hostOfDepth 1) ⟨0⟩).exec
        ((triangleWorld .kruskal .similarity).put ⟨0⟩ ringOfPairs) = (result', after')
      ∧ (result' = .ok () ↔ result = .ok ())
      ∧ Scene ⟨0⟩ ⟨0⟩ (AllPassive (Session.hostOfDepth 1) .empty (fun _ _ _ => []) ⟨0⟩) final
        (plainTree .kruskal .similarity) after
      ∧ Scene ⟨0⟩ ⟨0⟩ (AllPassive (Session.hostOfDepth 1) .empty (fun _ _ _ => []) ⟨0⟩) final'
        (plainTree .kruskal .similarity) after'
      ∧ MarkedAlike (fun id => .pair id id) ringForth final final'
        (plainTree .kruskal .similarity) (plainTree .kruskal .similarity) :=
  compute_kruskal_renamed (onlookers_allPassive _ _ _ _ _) (onlookers_allPassive _ _ _ _ _)
    (scene_put_triangleWorld .kruskal .similarity ringForth)
    (scene_put_triangleWorld .kruskal .similarity ringOfPairs) ⟨rfl, rfl⟩
    (by unfold Graph.NamedThroughout; decide +kernel) ⟨rfl, rfl, rfl, rfl, rfl, rfl, rfl, rfl⟩ rfl

/-- Two nodes and an edge with a given id. -/
def lonelyEdge (id : Value) : Graph :=
  (Graph.empty false).applied
    [.addNode (.int 1), .addNode (.int 2), .addEdge id (.int 1) (.int 2)]

/-- With "nothing" for an id, an edge is chosen as number 0 and not found; the
same graph is marked when the edge is called anything else. -/
theorem compute_kruskal_without_id :
    ((compute (Session.hostOfDepth 1) ⟨0⟩).exec
        ((triangleWorld .kruskal .distance).put ⟨0⟩ (lonelyEdge (.str "e")))).1 = .ok ()
      ∧ ((compute (Session.hostOfDepth 1) ⟨0⟩).exec
        ((triangleWorld .kruskal .distance).put ⟨0⟩ (lonelyEdge .null))).1
          = .error (.edgeNotFound (.int 0)) := by
  constructor
  · with_unfolding_all rfl
  · with_unfolding_all rfl

end EvolvingGraph
