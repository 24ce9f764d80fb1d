/-
  EvolvingGraph.Proofs.Marking.Compute
  ────────────────────────────────────
  **COMPUTING A TREE WHILE NOBODY INTERFERES.**

  Sinks that only look on do not fail and leave the graph and the tree alone.
  While nobody else is attached, computing a tree comes to its end: every edge
  is written twice at most, first as an edge outside the tree and then, if it
  is chosen, as a tree edge, and nothing but the flag is different afterwards.

  Main statements:
    * `Onlookers.exec_commit` — a change is made and reported;
    * `Onlookers.exec_writes` — a loop that writes edges;
    * `Onlookers.exec_computeTree` — the whole computation, for any choice of edges.
-/
import EvolvingGraph.Proofs.Delivery.Passive
import EvolvingGraph.Proofs.Marking.Painting

namespace EvolvingGraph

/-! ## §1. Sinks that only look on. -/

/-- In a calm world the sinks of a graph do not fail, and they leave the graph
and a tree as they are.  Whether a world is calm depends neither on what the
graph holds nor on the log. -/
structure Onlookers (host : Host) (g : GraphRef) (t : TreeRef) (calm : World → Prop) : Prop where
  present : ∀ w, calm w → w.HasGraph g
  put : ∀ w graph, calm w → calm (w.put g graph)
  noted : ∀ w entry, calm w → calm { w with log := w.log ++ [entry] }
  passive : ∀ w, calm w → ∀ s ∈ (w.objectAt g).emitter.sinks, ∀ sender event w', calm w' →
    ∃ w'', (host.notify s sender event).exec w' = (.ok (), w'') ∧ calm w''
      ∧ w''.objectAt g = w'.objectAt g ∧ w''.trees.get t.index = w'.trees.get t.index

/-- All sinks of a graph are passive. -/
def AllPassive (host : Host) (recorders : Heap Recorder) (notes : SinkRef → Notes) (g : GraphRef)
    (w : World) : Prop :=
  w.HasGraph g ∧ w.recorders = recorders
    ∧ ∀ s ∈ (w.objectAt g).emitter.sinks, Passive host recorders s (notes s)

theorem onlookers_allPassive (host : Host) (recorders : Heap Recorder) (notes : SinkRef → Notes)
    (g : GraphRef) (t : TreeRef) : Onlookers host g t (AllPassive host recorders notes g) where
  present := fun _ hw => hw.1
  put := by
    intro w graph hw
    refine ⟨(World.hasGraph_put graph).2 hw.1, hw.2.1, ?_⟩
    rw [World.objectAt_put_self hw.1]
    exact hw.2.2
  noted := fun _ _ hw => hw
  passive := by
    intro w hw s hs sender event w' hw'
    exact ⟨_, hw.2.2 s hs sender event w' hw'.2.1, hw', rfl, rfl⟩

/-- A calm world with a graph and a tree at their places. -/
structure Scene (g : GraphRef) (t : TreeRef) (calm : World → Prop) (graph : Graph) (tree : Tree)
    (w : World) : Prop where
  atRest : calm w
  graph_eq : (w.objectAt g).graph = graph
  tree_eq : w.trees.get t.index = tree

namespace Onlookers

variable {host : Host} {g : GraphRef} {t : TreeRef} {calm : World → Prop} {graph graph' : Graph}
  {tree : Tree} {w : World} {flag : Identifier}

theorem scene_note (h : Onlookers host g t calm) (hw : Scene g t calm graph tree w)
    (entry : LogEntry) : Scene g t calm graph tree { w with log := w.log ++ [entry] } :=
  ⟨h.noted w entry hw.atRest, hw.graph_eq, hw.tree_eq⟩

/-- A change that takes effect is made and reported. -/
theorem exec_commit (h : Onlookers host g t calm) (hw : Scene g t calm graph tree w) {c : Change}
    {event : Event} (htakes : graph.Takes c graph' event) :
    ∃ w', (commit host g c).exec w = (.ok (), w') ∧ Scene g t calm graph' tree w' := by
  have hput : Scene g t calm graph' tree (w.put g graph') := by
    refine ⟨h.put w graph' hw.atRest, ?_, hw.tree_eq⟩
    rw [World.objectAt_put_self (h.present w hw.atRest)]
  rw [← hw.graph_eq] at htakes
  rw [exec_commit_takes htakes]
  apply Run.exec_forM_ok _ hput
  intro s hs w' hw'
  obtain ⟨w'', hexec, hcalm, hobject, htree⟩ :=
    h.passive w hw.atRest s hs (w.objectAt g).emitter.id event w' hw'.atRest
  refine ⟨w'', hexec, hcalm, ?_, htree.trans hw'.tree_eq⟩
  rw [hobject]
  exact hw'.graph_eq

/-! ## §2. Writing edges. -/

/-- An edge is written through any view of it. -/
theorem exec_setOnView (h : Onlookers host g t calm) (hw : Scene g t calm graph tree w)
    (hg : graph.Coherent) {id : Identifier} (hid : id ∈ graph.edges.identifiers)
    (source target v : Value) :
    ∃ w' graph', (setOnView host ⟨g, id.value, source, target⟩ flag.value v).exec w = (.ok (), w')
      ∧ Scene g t calm graph' tree w' ∧ graph.Painted graph' (Graph.writing flag v [id]) := by
  obtain ⟨e, he, rfl⟩ := List.mem_map.1 hid
  obtain ⟨graph', event, htakes, hpainted⟩ := hg.painted_setAttribute he flag v
  obtain ⟨w', hexec, hscene⟩ := h.exec_commit hw htakes
  refine ⟨w', graph', hexec, hscene, hpainted.congr fun f _ a => ?_⟩
  simp [Graph.writing]

/-- A loop of which each step writes one edge. -/
theorem exec_writes {step : Identifier → Run Unit} {v : Value}
    (hstep : ∀ w graph id, Scene g t calm graph tree w → graph.Coherent →
      id ∈ graph.edges.identifiers → ∃ w' graph', (step id).exec w = (.ok (), w')
        ∧ Scene g t calm graph' tree w' ∧ graph.Painted graph' (Graph.writing flag v [id]))
    (hw : Scene g t calm graph tree w) (hg : graph.Coherent) {ids : List Identifier}
    (hids : ids ⊆ graph.edges.identifiers) :
    ∃ w' graph', (ids.forM step).exec w = (.ok (), w')
      ∧ Scene g t calm graph' tree w' ∧ graph.Painted graph' (Graph.writing flag v ids) := by
  induction ids generalizing w graph with
  | nil => exact ⟨w, graph, rfl, hw, .writing_nil graph flag v⟩
  | cons id ids ih =>
    rw [List.cons_subset] at hids
    obtain ⟨w', graph', hfirst, hw', hpainted⟩ := hstep w graph id hw hg hids.1
    -- writing an attribute leaves all ids, and the graph coherent, for the rest
    have hrest : ids ⊆ graph'.edges.identifiers := by
      rw [hpainted.edges]
      exact hids.2
    obtain ⟨w'', graph'', hexec, hw'', hpainted'⟩ :=
      ih hw' (hg.of_sameShape hpainted.sameShape) hrest
    refine ⟨w'', graph'', ?_, hw'', (hpainted.trans hpainted').congr fun e _ a => ?_⟩
    · rw [Run.exec_forM_cons, hfirst]
      exact hexec
    · exact Graph.writing_cons flag v id ids e a

theorem view_eq {e : EdgeEntry} (he : e ∈ graph.edges.entries) (ref : GraphRef) :
    graph.view ref e.1.value = .ok ⟨ref, e.1.value, e.2.source.value, e.2.target.value⟩ := by
  unfold Graph.view
  rw [Graph.Coherent.endpoints_of_mem he]
  rfl

/-- To do something with each edge of a graph is to do it with one after the other, as
long as the graph keeps its shape. -/
theorem exec_forEachEdge {act : EdgeView → Run Unit} {step : EdgeEntry → Run Unit}
    (hact : ∀ w graph', Scene g t calm graph' tree w → ∀ e : EdgeEntry,
      (act ⟨g, e.1.value, e.2.source.value, e.2.target.value⟩).exec w = (step e).exec w)
    (hstep : ∀ w graph', Scene g t calm graph' tree w → graph'.Coherent →
      ∀ e ∈ graph'.edges.entries, ∃ graph'', Scene g t calm graph'' tree ((step e).exec w).2
        ∧ graph'.SameShape graph'')
    (hw : Scene g t calm graph tree w) (hg : graph.Coherent) :
    (forEachEdge g act).exec w = (graph.edges.entries.forM step).exec w := by
  have hloop : ∀ es : List EdgeEntry, es ⊆ graph.edges.entries → ∀ w graph',
      Scene g t calm graph' tree w → graph'.Coherent → graph'.edges = graph.edges →
      Run.exec ((es.map fun e => e.1).forM fun id => do
        let graph ← World.graph g
        if graph.edges.contains id.key then
          act (← Run.ofExcept (graph.view g id.value))) w = Run.exec (es.forM step) w := by
    intro es
    induction es with
    | nil => exact fun _ _ _ _ _ _ => rfl
    | cons e es ih =>
      intro hes w graph' hw hg hedges
      obtain ⟨he, hes⟩ := List.cons_subset.1 hes
      rw [← hedges] at he
      obtain ⟨graph'', hnext, hshape⟩ := hstep w graph' hw hg e he
      rw [List.map_cons, Run.exec_forM_cons, Run.exec_forM_cons]
      simp only [Run.exec_bind, Run.exec_graph, hw.graph_eq, Catalog.contains_of_mem he, if_true,
        Run.exec_ofExcept, view_eq he, hact w graph' hw e]
      rcases hexec : (step e).exec w with ⟨_ | _, w'⟩
      · rfl
      · rw [hexec] at hnext
        exact ih hes w' graph'' hnext (hg.of_sameShape hshape) (hshape.edges.trans hedges)
  unfold forEachEdge
  simp only [Run.exec_bind, Run.exec_graph, hw.graph_eq]
  exact hloop graph.edges.entries (List.Subset.refl _) w graph hw hg rfl

/-- Every edge is marked as one outside the tree. -/
theorem exec_resetMarks (h : Onlookers host g t calm) (hw : Scene g t calm graph tree w)
    (hg : graph.Coherent) (hgraph : tree.graph = some g) (hflag : tree.flagAttribute = flag.value) :
    ∃ w' graph', (resetMarks host t).exec w = (.ok (), w') ∧ Scene g t calm graph' tree w'
      ∧ graph.Painted graph' (Graph.writing flag tree.flagOff graph.edges.identifiers) := by
  have hloop : (resetMarks host t).exec w = (graph.edges.identifiers.forM fun id => do
      let graph ← World.graph g
      if graph.edges.contains id.key then
        markOff host t (← Run.ofExcept (graph.view g id.value))).exec w := by
    unfold resetMarks forEachEdge
    simp [hw.tree_eq, hgraph, hw.graph_eq]
  rw [hloop]
  refine exec_writes ?_ hw hg (List.Subset.refl _)
  intro w graph id hw hg hid
  obtain ⟨e, he, rfl⟩ := List.mem_map.1 hid
  obtain ⟨w', graph', hexec, hresult⟩ :=
    h.exec_setOnView hw hg hid e.2.source.value e.2.target.value tree.flagOff
  refine ⟨w', graph', ?_, hresult⟩
  rw [← hexec, ← hflag]
  simp [hw.graph_eq, Catalog.contains_of_mem he, view_eq he, markOff, hw.tree_eq]

/-! ## §3. The whole computation. -/

/-- To mark edges named by their ids is to make one request for each. -/
theorem exec_markItems_eq (h : Onlookers host g t calm) (hw : Scene g t calm graph tree w)
    (hg : graph.Coherent) (hgraph : tree.graph = some g) (hflag : tree.flagAttribute = flag.value)
    {ids : List Identifier} (hids : ids ⊆ graph.edges.identifiers) {w' : World}
    (hwrites : ((ids.map fun id => .setAttribute .edge id.value flag.value tree.flagOn).forM
      (commit host g)).exec w = (.ok (), w')) :
    (markItems host t (ids.map (.named ·.value))).exec w = (.ok ids.length, w') := by
  induction ids generalizing w graph with
  | nil =>
    obtain rfl : w = w' := congrArg Prod.snd hwrites
    rfl
  | cons id ids ih =>
    rw [List.cons_subset] at hids
    obtain ⟨e, he, rfl⟩ := List.mem_map.1 hids.1
    obtain ⟨graph', event, htakes, hpainted⟩ := hg.painted_setAttribute he flag tree.flagOn
    obtain ⟨w₁, hfirst, hw₁⟩ := h.exec_commit hw htakes
    rw [List.map_cons, Run.exec_forM_cons, hfirst] at hwrites
    have hrest : ids ⊆ graph'.edges.identifiers := by
      rw [hpainted.edges]
      exact hids.2
    have hmarked := ih hw₁ (hg.of_sameShape hpainted.sameShape) hrest hwrites
    rw [← hflag] at hfirst
    simp [markItems, resolveItem, lookUp, treeGraph, hw.tree_eq, hgraph, hw.graph_eq, view_eq he,
      markOn, setOnView, hfirst, hmarked]

/-- Edges named by their ids are marked as tree edges, one after the other. -/
theorem exec_markItems (h : Onlookers host g t calm) (hw : Scene g t calm graph tree w)
    (hg : graph.Coherent) (hgraph : tree.graph = some g) (hflag : tree.flagAttribute = flag.value)
    {ids : List Identifier} (hids : ids ⊆ graph.edges.identifiers) :
    ∃ w' graph', (markItems host t (ids.map (.named ·.value))).exec w = (.ok ids.length, w')
      ∧ Scene g t calm graph' tree w'
      ∧ graph.Painted graph' (Graph.writing flag tree.flagOn ids) := by
  have hstep : ∀ w graph id, Scene g t calm graph tree w → graph.Coherent →
      id ∈ graph.edges.identifiers → ∃ w' graph',
        (commit host g (.setAttribute .edge id.value flag.value tree.flagOn)).exec w = (.ok (), w')
        ∧ Scene g t calm graph' tree w'
        ∧ graph.Painted graph' (Graph.writing flag tree.flagOn [id]) :=
    fun w graph id hw hg hid => h.exec_setOnView hw hg hid .null .null tree.flagOn
  obtain ⟨w', graph', hwrites, hscene, hpainted⟩ := exec_writes hstep hw hg hids
  have hrequests : (ids.map fun id => .setAttribute .edge id.value flag.value tree.flagOn).forM
      (commit host g) = ids.forM fun id =>
        commit host g (.setAttribute .edge id.value flag.value tree.flagOn) := List.forM_map
  rw [← hrequests] at hwrites
  exact ⟨w', graph', h.exec_markItems_eq hw hg hgraph hflag hids hwrites, hscene, hpainted⟩

/-- The flags after a tree has been computed with the given edges. -/
def flagged (tree : Tree) (flag : Identifier) (ids : List Identifier) (e : EdgeEntry)
    (a : Attributes) : Attributes :=
  a.insert flag (if e.1.key ∈ ids.map (·.key) then tree.flagOn else tree.flagOff)

/-- Every edge is written once as one outside, and the chosen ones are written once more. -/
theorem writing_flagOn_flagOff (ids : List Identifier) {e : EdgeEntry}
    (he : e ∈ graph.edges.entries) (a : Attributes) :
    Graph.writing flag tree.flagOn ids e
        (Graph.writing flag tree.flagOff graph.edges.identifiers e a)
      = flagged tree flag ids e a := by
  have hall : e.1.key ∈ graph.edges.identifiers.map (·.key) :=
    List.mem_map_of_mem (List.mem_map_of_mem he)
  unfold Graph.writing flagged
  rw [if_pos hall]
  by_cases hchosen : e.1.key ∈ ids.map (·.key)
  · rw [if_pos hchosen, if_pos hchosen, Catalog.insert_insert]
  · rw [if_neg hchosen, if_neg hchosen]

/-- The steps of a computation that comes to its end, put together. -/
theorem exec_computeTree_of_steps {build : Run (List TreeItem)} {items : List TreeItem}
    {marked : Nat} {w₁ w₂ : World} (hw : Scene g t calm graph tree w)
    (hgraph : tree.graph = some g)
    (hreset : (resetMarks host t).exec { w with log := w.log ++
        [.computing tree.strategy tree.mode (graph.describe (w.objectAt g).emitter.id)] }
      = (.ok (), w₁))
    (hlisted : build.exec w₁ = (.ok items, w₁))
    (hmarked : (markItems host t items).exec w₁ = (.ok marked, w₂))
    (hw₂ : Scene g t calm graph' tree w₂) :
    (computeTree host t build).exec w = (.ok (),
      { w₂ with log := w₂.log ++ [.computed marked graph'.edges.size] }) := by
  simp [computeTree, hw.tree_eq, hgraph, hw.graph_eq, hreset, hlisted, hmarked, treeGraph,
    hw₂.tree_eq, hw₂.graph_eq]

/-- **Computing a tree comes to its end, and nothing but the flags is different.** -/
theorem exec_computeTree (h : Onlookers host g t calm) (hw : Scene g t calm graph tree w)
    (hg : graph.Coherent) (hgraph : tree.graph = some g) (hflag : tree.flagAttribute = flag.value)
    {build : Run (List TreeItem)} {ids : List Identifier} (hids : ids ⊆ graph.edges.identifiers)
    (hbuild : ∀ w' graph', Scene g t calm graph' tree w' →
      graph.Painted graph' (Graph.writing flag tree.flagOff graph.edges.identifiers) →
      build.exec w' = (.ok (ids.map (.named ·.value)), w')) :
    ∃ w' graph', (computeTree host t build).exec w = (.ok (), w')
      ∧ Scene g t calm graph' tree w' ∧ graph.Painted graph' (flagged tree flag ids) := by
  have hnoted := h.scene_note hw
    (.computing tree.strategy tree.mode (graph.describe (w.objectAt g).emitter.id))
  obtain ⟨w₁, graph₁, hreset, hw₁, hpainted₁⟩ := h.exec_resetMarks hnoted hg hgraph hflag
  have hids₁ : ids ⊆ graph₁.edges.identifiers := by
    rw [hpainted₁.edges]
    exact hids
  obtain ⟨w₂, graph₂, hmark, hw₂, hpainted₂⟩ := h.exec_markItems hw₁
    (hg.of_sameShape hpainted₁.sameShape) hgraph hflag hids₁
  exact ⟨_, graph₂,
    exec_computeTree_of_steps hw hgraph hreset (hbuild w₁ graph₁ hw₁ hpainted₁) hmark hw₂,
    h.scene_note hw₂ (.computed ids.length graph₂.edges.size),
    (hpainted₁.trans hpainted₂).congr fun e he a => writing_flagOn_flagOff ids he a⟩

end Onlookers
end EvolvingGraph
