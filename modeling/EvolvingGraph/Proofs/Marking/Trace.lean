/-
  EvolvingGraph.Proofs.Marking.Trace
  ──────────────────────────────────
  **WHAT IS HEARD OF A COMPUTATION, EVENT BY EVENT.**

  Whoever listens to a graph while a tree is computed on it hears two rounds.  In
  the first one every edge is given the flag of the edges outside the tree, in the
  order of the table, and its old flag is told with it.  In the second one the
  chosen edges are given the other flag, each once, in the order in which they are
  chosen.  Kruskal's algorithm chooses them in the order of their weights.  Nothing
  else is heard, and nothing but the flags is different afterwards.

  A choice names an edge twice only if it takes a candidate twice or two candidates
  have the same id.  A best forest does not do the first, and a graph in which every
  edge is named does not allow the second.

  Main statements:
    * `Graph.Coherent.takesAll_writing` — one round: which events it takes;
    * `Graph.Coherent.isBestForest_choose` — both algorithms choose best forests;
    * `Audience.marksAloud` — both rounds, for any choice of edges;
    * `compute_is_heard_in_two_rounds` — what is heard of a computation.
-/
import EvolvingGraph.Proofs.Forest.Frontier
import EvolvingGraph.Proofs.Marking.Choosing

namespace EvolvingGraph

/-! ## §1. Writing an attribute of several edges. -/

/-- The event that tells of another value that an edge has been given. -/
def EdgeEntry.changed (e : EdgeEntry) (name old new : Value) : Event :=
  .attributeChanged .edge e.1.value name old new

namespace Graph

variable {g g' : Graph} {e : EdgeEntry} {a : Attributes}

/-- The value that an edge has for an attribute, nothing if it has none. -/
def valueOn (g : Graph) (name : Value) (e : EdgeEntry) : Value :=
  match g.readAttribute .edge e.1.value name .null with
  | .ok v => v
  | .error _ => .null

theorem valueOn_eq (ha : g.edgeAttributes e.1.value = .ok a) (name : Identifier) :
    g.valueOn name.value e = (a.get? name.key).getD .null := by
  unfold valueOn
  rw [readAttribute_edge ha]

theorem Painted.valueOn_eq {paint : EdgeEntry → Attributes → Attributes} (h : g.Painted g' paint)
    (he : e ∈ g.edges.entries) (ha : g.edgeAttributes e.1.value = .ok a) (name : Identifier) :
    g'.valueOn name.value e = ((paint e a).get? name.key).getD .null :=
  Graph.valueOn_eq (h.attributes e he a ha) name

/-- **A round of requests, one for each of some edges, is told of by one event for
each of them.**  No edge hears of another one's value. -/
theorem Coherent.takesAll_writing (hg : g.Coherent) (name : Identifier) (v : Value)
    {es : List EdgeEntry} (hes : es ⊆ g.edges.entries) (hnodup : es.Nodup) :
    ∃ g', g.TakesAll (es.map fun e => .setAttribute .edge e.1.value name.value v) g'
        (es.map fun e => e.changed name.value (g.valueOn name.value e) v)
      ∧ g.Painted g' (writing name v (es.map (·.1))) := by
  induction es generalizing g with
  | nil => exact ⟨g, .nil g, .writing_nil g name v⟩
  | cons e es ih =>
    obtain ⟨he, hes⟩ := List.cons_subset.1 hes
    obtain ⟨hfirst, hnodup⟩ := List.nodup_cons.1 hnodup
    obtain ⟨a, ha⟩ := hg.edgeAttributes_of_mem he
    obtain ⟨g₁, htakes, hpainted⟩ := hg.takes_setAttribute he ha name v
    have hes₁ : es ⊆ g₁.edges.entries := by
      rw [hpainted.edges]
      exact hes
    obtain ⟨g₂, hrest, hpainted₂⟩ := ih (hg.of_sameShape hpainted.sameShape) hes₁ hnodup
    -- the others still have the values that they had before the first one was written
    have hsame : ∀ f ∈ es, g₁.valueOn name.value f = g.valueOn name.value f := by
      intro f hf
      obtain ⟨b, hb⟩ := hg.edgeAttributes_of_mem (hes hf)
      have hother : f.1.key ≠ e.1.key := fun hkey =>
        hfirst (Catalog.eq_of_mem_of_key_eq (hes hf) he hkey ▸ hf)
      rw [hpainted.valueOn_eq (hes hf) hb, valueOn_eq hb, if_neg hother]
    have hevents : es.map (fun f => EdgeEntry.changed f name.value (g₁.valueOn name.value f) v)
        = es.map fun f => EdgeEntry.changed f name.value (g.valueOn name.value f) v :=
      List.map_congr_left fun f hf => by rw [hsame f hf]
    rw [hevents] at hrest
    rw [← valueOn_eq ha] at htakes
    refine ⟨g₂, .cons htakes hrest, (hpainted.trans hpainted₂).congr fun f _ b => ?_⟩
    rw [List.map_cons, ← writing_cons]
    simp [writing]

/-- Once all edges have been given a value, all have it. -/
theorem Painted.valueOn_of_all {name : Identifier} {v : Value} (hg : g.Coherent)
    (h : g.Painted g' (writing name v g.edges.identifiers)) (he : e ∈ g.edges.entries) :
    g'.valueOn name.value e = v := by
  obtain ⟨a, ha⟩ := hg.edgeAttributes_of_mem he
  have hall : e.1.key ∈ g.edges.identifiers.map (·.key) :=
    List.mem_map_of_mem (List.mem_map_of_mem he)
  rw [h.valueOn_eq he ha]
  unfold writing
  rw [if_pos hall, Catalog.get?_insert_self]
  rfl

/-! ## §2. The edges that are chosen. -/

/-- **What either algorithm chooses is a best forest of the candidates.** -/
theorem Coherent.isBestForest_choose (hg : g.Coherent)
    (hnamed : ∀ e ∈ g.edges.entries, e.1.key ≠ .null) (name : Value) (mode : Forest.Mode)
    (algorithm : Algorithm) :
    Forest.IsBestForest Forest.WeightedEdge.ends (·.grade mode) (g.weighedCandidates name)
      (g.choose algorithm mode (g.weighedCandidates name)) := by
  cases algorithm with
  | kruskal =>
    exact Forest.isBestForest_kruskal mode (hg.nodup_weighedCandidates hnamed name).of_map
  | prim =>
    have hwithin := hg.within_weighedCandidates hnamed name
    exact (Forest.growth_prim hwithin).isBestForest hwithin

section Choice

variable {name : Value} {chosen : List Forest.WeightedEdge}
  (hg : g.Coherent) (hnamed : ∀ e ∈ g.edges.entries, e.1.key ≠ .null)
  (hsub : chosen ⊆ g.weighedCandidates name)

include hg hnamed hsub

theorem Coherent.entryOf_weighed {c : Forest.WeightedEdge} (hc : c ∈ chosen) :
    g.entryOf c ∈ g.edges.entries ∧ (g.entryOf c).1 = c.id
      ∧ g.weightOf name (g.entryOf c) = c.weight := by
  obtain ⟨e, he, -, hid, -, hweight⟩ := hg.exists_of_mem_weighedCandidates hnamed (hsub hc)
  rw [entryOf_eq he hid]
  exact ⟨he, hid.symm, hweight.symm⟩

theorem Coherent.entriesOf_subset : chosen.map g.entryOf ⊆ g.edges.entries := by
  intro e he
  obtain ⟨c, hc, rfl⟩ := List.mem_map.1 he
  exact (hg.entryOf_weighed hnamed hsub hc).1

/-- What is made of the ids of the edges is made of the ids of the candidates. -/
theorem Coherent.map_ids_entriesOf {β : Type} (f : Identifier → β) :
    (chosen.map g.entryOf).map (fun e => f e.1) = chosen.map fun c => f c.id := by
  rw [List.map_map]
  exact List.map_congr_left fun c hc => congrArg f (hg.entryOf_weighed hnamed hsub hc).2.1

/-- A candidate that is chosen once is an edge that is chosen once. -/
theorem Coherent.nodup_entriesOf (hnodup : chosen.Nodup) : (chosen.map g.entryOf).Nodup := by
  apply hnodup.map_on
  intro c hc d hd hsame
  have hid : c.id = d.id := by
    rw [← (hg.entryOf_weighed hnamed hsub hc).2.1, ← (hg.entryOf_weighed hnamed hsub hd).2.1,
      hsame]
  exact List.inj_on_of_nodup_map (hg.nodup_weighedCandidates hnamed name) (hsub hc) (hsub hd)
    (congrArg Identifier.key hid)

end Choice

/-- **Kruskal's algorithm chooses edges in the order of their weights.** -/
theorem Coherent.pairwise_kruskal (hg : g.Coherent)
    (hnamed : ∀ e ∈ g.edges.entries, e.1.key ≠ .null) (mode : Forest.Mode) (name : Value) :
    ((Forest.kruskal mode (g.weighedCandidates name)).map g.entryOf).Pairwise fun e f =>
      mode.prefers (g.weightOf name e) (g.weightOf name f) = true := by
  have hsub : Forest.kruskal mode (g.weighedCandidates name) ⊆ g.weighedCandidates name :=
    g.choose_subset .kruskal mode _
  have hsorted := (Forest.pairwise_byWeight mode (g.weighedCandidates name)).sublist
    (Forest.scan_sublist .discrete _)
  refine List.pairwise_map.2 (hsorted.imp_of_mem fun hc hd hle => ?_)
  rw [(hg.entryOf_weighed hnamed hsub hc).2.2, (hg.entryOf_weighed hnamed hsub hd).2.2]
  exact Forest.Mode.prefers_iff_grade.2 hle

end Graph

/-! ## §3. Two rounds of requests. -/

namespace Tree

/-- The events of the first round: every edge is given the flag of the edges outside
the tree, in the order of the table, whatever flag it had. -/
def resetEvents (tree : Tree) (graph : Graph) : List Event :=
  graph.edges.entries.map fun e =>
    EdgeEntry.changed e tree.flagAttribute (graph.valueOn tree.flagAttribute e) tree.flagOff

/-- The events of the second round: some edges are given the flag of tree edges. -/
def markEvents (tree : Tree) (chosen : List EdgeEntry) : List Event :=
  chosen.map fun e => EdgeEntry.changed e tree.flagAttribute tree.flagOff tree.flagOn

end Tree

/-- A computation marks edges of a graph, each once, and comes to its end.  No
attribute but the flag is different in the graph, and in the world there is
nothing else but two lines in the log and what is written down of the two rounds. -/
structure MarksAloud (a : Audience) (graph : Graph) (tree : Tree) (flag : String)
    (chosen : List EdgeEntry) (w : World) (computation : Run Unit) : Prop where
  subset : chosen ⊆ graph.edges.entries
  once : chosen.Nodup
  outcome : ∃ graph', graph.Painted graph'
      (Onlookers.flagged tree (.ofText flag) (chosen.map (·.1)))
    ∧ computation.exec w = (.ok (),
      { (w.put a.graph graph').receive
          ((tree.resetEvents graph ++ tree.markEvents chosen).flatMap a.trace) with
        log := w.log ++ [computingLine graph tree a.emitter.id,
          .computed chosen.length graph.edges.size] })

namespace Audience

variable {a : Audience} {t : TreeRef} {graph : Graph} {tree : Tree} {w : World}
  {flag weight : String}

/-- A passive audience only looks on. -/
theorem onlookers (a : Audience) (t : TreeRef) : Onlookers a.host a.graph t a.Attends where
  present := fun _ hw => hw.present
  put := by
    intro w graph hw
    rw [← World.receive_nil (w.put a.graph graph)]
    exact hw.put_receive graph []
  noted := fun _ _ hw => ⟨hw.present, hw.emitter_eq, hw.passive⟩
  passive := by
    intro w hw s hs sender event w' hw'
    rw [hw.emitter_eq] at hs
    refine ⟨_, hw'.passive s hs sender event w' rfl, ?_, rfl, rfl⟩
    exact ⟨hw'.present, hw'.emitter_eq, hw'.passive⟩

/-- One round: an attribute of several edges is written. -/
theorem Attends.exec_round (h : a.Attends w) (hgraph : (w.objectAt a.graph).graph = graph)
    (hg : graph.Coherent) (name : Identifier) (v : Value) {es : List EdgeEntry}
    (hes : es ⊆ graph.edges.entries) (hnodup : es.Nodup) :
    ∃ graph', graph.Painted graph' (Graph.writing name v (es.map (·.1)))
      ∧ ((es.map fun e => .setAttribute .edge e.1.value name.value v).forM
          (commit a.host a.graph)).exec w
        = (.ok (), (w.put a.graph graph').receive ((es.map fun e =>
            EdgeEntry.changed e name.value (graph.valueOn name.value e) v).flatMap a.trace)) := by
  obtain ⟨graph', htakes, hpainted⟩ := hg.takesAll_writing name v hes hnodup
  exact ⟨graph', hpainted, h.exec_forM_commit hgraph htakes⟩

/-- The graph that a round leaves is in its place, and the audience is still there. -/
theorem scene_round (hw : Scene a.graph t a.Attends graph tree w) (graph' : Graph)
    (receipts : List Receipt) :
    Scene a.graph t a.Attends graph' tree ((w.put a.graph graph').receive receipts) := by
  refine ⟨hw.atRest.put_receive graph' receipts, ?_, hw.tree_eq⟩
  rw [World.objectAt_receive, World.objectAt_put_self hw.atRest.present]

/-- The first round resets the marks of all edges. -/
theorem exec_resetMarks (hw : Scene a.graph t a.Attends graph tree w) (hg : graph.Coherent)
    (htree : MarksBy tree a.graph flag weight) :
    ∃ graph', graph.Painted graph'
        (Graph.writing (.ofText flag) tree.flagOff graph.edges.identifiers)
      ∧ (resetMarks a.host t).exec w
        = (.ok (), (w.put a.graph graph').receive ((tree.resetEvents graph).flatMap a.trace)) := by
  obtain ⟨graph', hpainted, hexec⟩ := hw.atRest.exec_round hw.graph_eq hg (.ofText flag)
    tree.flagOff (List.Subset.refl _) graph.edges.nodup_entries
  rw [← htree.flag_value] at hexec
  have hunmarkings : graph.unmarkings tree = graph.edges.entries.map fun e =>
      .setAttribute .edge e.1.value tree.flagAttribute tree.flagOff := by
    unfold Graph.unmarkings Catalog.identifiers
    rw [List.map_map]
    rfl
  rw [← hunmarkings, ← (a.onlookers t).exec_resetMarks_eq hw hg htree] at hexec
  exact ⟨graph', hpainted, hexec⟩

/-- The second round marks the edges that are listed, when all marks have been reset. -/
theorem exec_markItems (hw : Scene a.graph t a.Attends graph tree w) (hg : graph.Coherent)
    (htree : MarksBy tree a.graph flag weight) {chosen : List EdgeEntry}
    (hsub : chosen ⊆ graph.edges.entries) (hnodup : chosen.Nodup)
    (hoff : ∀ e ∈ chosen, graph.valueOn tree.flagAttribute e = tree.flagOff) :
    ∃ graph', graph.Painted graph' (Graph.writing (.ofText flag) tree.flagOn (chosen.map (·.1)))
      ∧ (markItems a.host t (chosen.map (.named ·.1.value))).exec w
        = (.ok chosen.length,
          (w.put a.graph graph').receive ((tree.markEvents chosen).flatMap a.trace)) := by
  obtain ⟨graph', hpainted, hexec⟩ := hw.atRest.exec_round hw.graph_eq hg (.ofText flag)
    tree.flagOn hsub hnodup
  have hevents : chosen.map (fun e => EdgeEntry.changed e tree.flagAttribute
        (graph.valueOn tree.flagAttribute e) tree.flagOn)
      = tree.markEvents chosen :=
    List.map_congr_left fun e he => by rw [hoff e he]
  have hids : chosen.map (·.1) ⊆ graph.edges.identifiers := List.map_subset _ hsub
  rw [← htree.flag_value, hevents] at hexec
  have hrequests : chosen.map (fun e =>
        Change.setAttribute .edge e.1.value tree.flagAttribute tree.flagOn)
      = (chosen.map (·.1)).map fun id =>
        .setAttribute .edge id.value (Identifier.ofText flag).value tree.flagOn := by
    rw [List.map_map, htree.flag_value]
    rfl
  rw [hrequests] at hexec
  have hmarked := (a.onlookers t).exec_markItems_eq hw hg htree.graph_eq htree.flag_value hids hexec
  rw [List.map_map, List.length_map] at hmarked
  exact ⟨graph', hpainted, hmarked⟩

/-- **Whichever edges are listed, marking them is heard in two rounds.** -/
theorem marksAloud (hw : Scene a.graph t a.Attends graph tree w) (hg : graph.Coherent)
    (htree : MarksBy tree a.graph flag weight) {build : Run (List TreeItem)}
    {chosen : List EdgeEntry} (hsub : chosen ⊆ graph.edges.entries) (hnodup : chosen.Nodup)
    (hbuild : ∀ w' graph', Scene a.graph t a.Attends graph' tree w' →
      graph.Painted graph'
        (Graph.writing (.ofText flag) tree.flagOff graph.edges.identifiers) →
      build.exec w' = (.ok (chosen.map (.named ·.1.value)), w')) :
    MarksAloud a graph tree flag chosen w (computeTree a.host t build) := by
  have hnoted := (a.onlookers t).scene_note hw
    (computingLine graph tree (w.objectAt a.graph).emitter.id)
  obtain ⟨graph₁, hpainted₁, hreset⟩ := exec_resetMarks hnoted hg htree
  have hw₁ := scene_round hnoted graph₁ ((tree.resetEvents graph).flatMap a.trace)
  have hsub₁ : chosen ⊆ graph₁.edges.entries := by
    rw [hpainted₁.edges]
    exact hsub
  have hoff : ∀ e ∈ chosen, graph₁.valueOn tree.flagAttribute e = tree.flagOff := by
    intro e he
    rw [htree.flag_value]
    exact hpainted₁.valueOn_of_all hg (hsub he)
  obtain ⟨graph₂, hpainted₂, hmarked⟩ :=
    exec_markItems hw₁ (hg.of_sameShape hpainted₁.sameShape) htree hsub₁ hnodup hoff
  have hw₂ := scene_round hw₁ graph₂ ((tree.markEvents chosen).flatMap a.trace)
  refine ⟨hsub, hnodup, graph₂, (hpainted₁.trans hpainted₂).congr fun e he b =>
    Onlookers.writing_flagOn_flagOff _ he b, ?_⟩
  have hexec := Onlookers.exec_computeTree_of_steps hw htree.graph_eq hreset
    (hbuild _ graph₁ hw₁ hpainted₁) hmarked hw₂
  -- the later graph takes the place of the earlier one, and the receipts add up
  have hlog : w.log ++ [computingLine graph tree a.emitter.id,
        .computed chosen.length graph.edges.size]
      = w.log ++ [computingLine graph tree a.emitter.id]
        ++ [.computed chosen.length graph.edges.size] := List.append_cons ..
  rw [hexec, hpainted₂.edges, hpainted₁.edges, World.put_receive_put hnoted.atRest.present,
    ← List.flatMap_append, hw.atRest.emitter_eq, hlog]
  rfl

end Audience

/-! ## §4. What is heard of a computation. -/

section Computation

variable {a : Audience} {t : TreeRef} {graph : Graph} {tree : Tree} {w : World}
  {flag weight : String} {algorithm : Algorithm}

/-- A best forest of the candidates is marked aloud, however it comes to be listed. -/
theorem Audience.marksAloud_of_best (hw : Scene a.graph t a.Attends graph tree w)
    (hg : graph.Coherent) (htree : MarksBy tree a.graph flag weight)
    (hnamed : ∀ e ∈ graph.edges.entries, e.1.key ≠ .null) {chosen : List Forest.WeightedEdge}
    (hbest : Forest.IsBestForest Forest.WeightedEdge.ends (·.grade tree.mode)
      (graph.weighedCandidates (.str weight)) chosen) {build : Run (List TreeItem)}
    (hbuild : ∀ w' graph', Scene a.graph t a.Attends graph' tree w' →
      graph.Painted graph'
        (Graph.writing (.ofText flag) tree.flagOff graph.edges.identifiers) →
      build.exec w' = (.ok (chosen.map fun c => .named c.id.value), w')) :
    MarksAloud a graph tree flag (chosen.map graph.entryOf) w (computeTree a.host t build) := by
  have hitems := hg.map_ids_entriesOf hnamed hbest.subset fun id => TreeItem.named id.value
  refine marksAloud hw hg htree (hg.entriesOf_subset hnamed hbest.subset)
    (hg.nodup_entriesOf hnamed hbest.subset hbest.nodup) ?_
  rw [hitems]
  exact hbuild

/-- **Computing a tree is heard in two rounds and changes nothing but the flags.**
Every edge is given the flag of the edges outside the tree, in order, and its old
flag is told with it; then the edges that are selected get the other flag, each once,
by Kruskal's algorithm in the order of their weights.  With Prim's algorithm this is
so for every run with a heap. -/
theorem compute_is_heard_in_two_rounds (hw : Scene a.graph t a.Attends graph tree w)
    (hg : graph.Coherent) (htree : MarksBy tree a.graph flag weight)
    (hstrategy : tree.strategy = algorithm.strategy)
    (hnamed : ∀ e ∈ graph.edges.entries, e.1.key ≠ .null)
    (hvalid : ∀ e ∈ graph.edges.entries, ¬graph.HasBadWeight (.str weight) e) :
    (∃ selected, graph.spanningIds algorithm tree.mode (.str weight)
          = .ok (selected.map (·.1.value))
        ∧ MarksAloud a graph tree flag selected w (compute a.host t)
        ∧ (algorithm = .kruskal → selected.Pairwise fun e f => tree.mode.prefers
            (graph.weightOf (.str weight) e) (graph.weightOf (.str weight) f) = true))
      ∧ (algorithm = .prim → ∀ taken, Forest.HeapRun tree.mode
          (graph.weighedCandidates (.str weight)) graph.nodeKeys ∅ [] taken →
          MarksAloud a graph tree flag (taken.map graph.entryOf) w
            (computeTree a.host t (pure (taken.map fun c => .named c.id.value)))) := by
  have hedges : graph.weightedEdges (.str weight) = .ok (graph.weighedCandidates (.str weight)) :=
    hg.weightedEdges_of_valid (.ofText weight) hvalid
  have hbest := hg.isBestForest_choose hnamed (.str weight) tree.mode algorithm
  refine ⟨⟨_, ?_, Audience.marksAloud_of_best hw hg htree hnamed hbest ?_, ?_⟩, ?_⟩
  · rw [hg.map_ids_entriesOf hnamed hbest.subset Identifier.value]
    unfold Graph.spanningIds
    rw [hedges]
    rfl
  · exact fun w' graph' hw' hpainted =>
      Onlookers.exec_treeItems_of_writing hw' hg htree hstrategy hedges hpainted
  · rintro rfl
    exact hg.pairwise_kruskal hnamed tree.mode (.str weight)
  · intro _ taken hrun
    have hgrown := hrun.isBestForest (hg.within_weighedCandidates hnamed (.str weight))
    exact Audience.marksAloud_of_best hw hg htree hnamed hgrown fun _ _ _ _ => rfl

/-- The triangle with a recorder beside the sink that is silent. -/
def listenedTriangle (strategy : Strategy) (mode : Forest.Mode) : World :=
  { triangleWorld strategy mode with
    recorders := ⟨[⟨"r", []⟩]⟩
    graphs := ⟨[⟨"triangle", ⟨.str "triangle", [.silent 0, .recorder 0]⟩, triangle⟩]⟩ }

/-- What these sinks write down: the silent one nothing, the recorder everything. -/
def triangleAudience : Audience where
  host := Session.hostOfDepth 1
  graph := ⟨0⟩
  emitter := ⟨.str "triangle", [.silent 0, .recorder 0]⟩
  notes
    | .recorder _, sender, event => [⟨"r", sender, event⟩]
    | _, _, _ => []

theorem scene_listenedTriangle (strategy : Strategy) (mode : Forest.Mode) :
    Scene triangleAudience.graph ⟨0⟩ triangleAudience.Attends triangle (plainTree strategy mode)
      (listenedTriangle strategy mode) := by
  refine ⟨⟨Nat.one_pos, rfl, fun s hs => ?_⟩, rfl, rfl⟩
  obtain rfl | hs := List.mem_cons.1 hs
  · exact passive_silent 0 _ 0
  · rw [List.mem_singleton.1 hs]
    exact passive_recorder 0 rfl

theorem compute_is_heard_in_two_rounds_triangle :
    ∃ selected, triangle.spanningIds .kruskal .similarity (.str "weight")
        = .ok (selected.map (·.1.value))
      ∧ MarksAloud triangleAudience triangle (plainTree .kruskal .similarity)
        "SpanningTree.flag" selected (listenedTriangle .kruskal .similarity)
        (compute (Session.hostOfDepth 1) ⟨0⟩)
      ∧ selected.Pairwise fun e f => Forest.Mode.similarity.prefers
        (triangle.weightOf (.str "weight") e) (triangle.weightOf (.str "weight") f) = true := by
  have hstrategy : (plainTree .kruskal .similarity).strategy = Algorithm.kruskal.strategy := rfl
  obtain ⟨⟨selected, hselected, haloud, hordered⟩, -⟩ := compute_is_heard_in_two_rounds
    (scene_listenedTriangle .kruskal .similarity) reachable_triangle.coherent
    (marksBy_plainTree _ _) hstrategy (by decide +kernel) (by decide +kernel)
  exact ⟨selected, hselected, haloud, hordered rfl⟩

/-- What the recorder hears of Prim's algorithm: no edge had a flag, and two are selected. -/
example :
    (((compute (Session.hostOfDepth 1) ⟨0⟩).exec (listenedTriangle .prim .distance)).2.received.map
      fun receipt => match receipt.event with
        | .attributeChanged _ (.str id) _ old (.bool flag) => (id, old.isNull, flag)
        | _ => ("", false, false))
      = [("out", true, false), ("back", true, false), ("home", true, false),
        ("next", true, false), ("round", true, false), ("round", false, true),
        ("home", false, true)] := by decide +kernel

end Computation
end EvolvingGraph
