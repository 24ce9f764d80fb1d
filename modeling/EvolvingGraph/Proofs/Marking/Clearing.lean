/-
  EvolvingGraph.Proofs.Marking.Clearing
  ─────────────────────────────────────
  **CLEARING A TREE UNDOES ALL ITS MARKS.**

  Whatever a tree is asked to mark, and however often, it writes nothing but its
  flag, and only on edges of its graph.  A flag may come to stand at any place
  among the attributes of an edge, where it was before or at the end; but without
  it the attributes are those that they were, in their order.  This is what each
  request keeps, also one that fails midway, and so does any number of them.

  To clear the tree takes the flags off.  What is left is the graph as it was
  before the first request, without the flags that it may have had even then.

  Main statements:
    * `Catalog.SameBut.insert` — a flag makes no difference once it is taken off;
    * `Marking.reflagged_run` — one request to the tree writes nothing but flags;
    * `Markings.reflagged` — and neither does any number of them;
    * `clear_undoes_markings` — the graph after it is cleared, and what is heard of that.
-/
import EvolvingGraph.Proofs.Delivery.Keeping
import EvolvingGraph.Proofs.Marking.Assignments
import EvolvingGraph.Proofs.Marking.Erasing
import EvolvingGraph.Proofs.Marking.Listed

namespace EvolvingGraph

/-! ## §1. The same but for one name. -/

/-- Without what is filed under one key, two catalogs are the same, also in order. -/
def Catalog.SameBut {α : Type} (k : Key) (c c' : Catalog α) : Prop := c'.erase k = c.erase k

theorem Catalog.SameBut.insert {α : Type} {name : Identifier} {c c' : Catalog α}
    (h : SameBut name.key c c') (a : α) : SameBut name.key c (c'.insert name a) :=
  (erase_insert c' name a).trans h

/-- To take an attribute off the edges of a graph is to take it off those of the graph
that this one was before the attribute was written. -/
theorem Graph.Like.painted_erase {g g' g'' : Graph} {k : Key}
    (hlike : g.Like (Catalog.SameBut k) g') (h : g'.Painted g'' fun _ a => a.erase k) :
    g.Painted g'' fun _ a => a.erase k where
  directed := h.directed.trans hlike.directed
  nodes := h.nodes.trans hlike.nodes
  edges := h.edges.trans hlike.edges
  links := h.links.trans hlike.endpoints
  attributes := by
    intro e he a ha
    have hread := hlike.edgeAttributes e.1.value
    rw [ha] at hread
    rw [← hlike.edges] at he
    cases hread' : g'.edgeAttributes e.1.value with
    | error _ =>
      rw [hread'] at hread
      cases hread
    | ok a' =>
      rw [hread'] at hread
      cases hread with
      | ok hsame =>
        rw [h.attributes e he a' hread']
        exact congrArg _ hsame

/-! ## §2. Writing flags. -/

/-- An id, or a view of an edge of the tree's graph, stands for an edge of this graph. -/
theorem graph_of_resolveEdge {t : TreeRef} {g : GraphRef} {v : Value} {e : EdgeView} {w : World}
    (hg : (w.trees.get t.index).graph = some g) (hv : v.IsIdOrViewOf g)
    (h : ((resolveEdge t v).exec w).1 = .ok e) : e.graph = g := by
  cases v with
  | edge x id source target =>
    cases h
    exact hv
  | _ =>
    unfold resolveEdge at h
    simp only [Run.exec_bind, Run.exec_tree, hg, lookUp, Run.exec_graph, Run.exec_ofExcept] at h
    exact graph_eq_of_view h

/-- In front of an audience there is the given graph but for the flags of its edges, and a
tree that may have written them. -/
def Reflagged (a : Audience) (t : TreeRef) (flag : Identifier) (graph : Graph) (tree : Tree)
    (w : World) : Prop :=
  ∃ graph', Scene a.graph t a.Attends graph' tree w
    ∧ graph.Like (Catalog.SameBut flag.key) graph'

namespace Reflagged

variable {a : Audience} {t : TreeRef} {flag : Identifier} {graph : Graph} {tree : Tree} {w : World}

theorem refl (hw : Scene a.graph t a.Attends graph tree w) : Reflagged a t flag graph tree w :=
  ⟨graph, hw, .refl fun _ _ _ _ => rfl⟩

theorem tree_eq (h : Reflagged a t flag graph tree w) : w.trees.get t.index = tree := by
  obtain ⟨graph', hw, -⟩ := h
  exact hw.tree_eq

instance keeps_note (entry : LogEntry) :
    Run.Keeps (Reflagged a t flag graph tree) (World.note entry) := by
  refine ⟨fun w hw => ?_⟩
  obtain ⟨graph', hw, hlike⟩ := hw
  exact ⟨graph', (a.onlookers t).scene_note hw entry, hlike⟩

/-- **A flag is written on an edge of the graph, or the attempt fails; either way the
graph is as it was but for flags.** -/
theorem keeps_setFlag {e : EdgeView} (he : e.graph = a.graph) (v : Value) :
    Run.Keeps (Reflagged a t flag graph tree) (setOnView a.host e flag.value v) := by
  refine ⟨fun w hw => ?_⟩
  obtain ⟨graph', hw, hlike⟩ := hw
  unfold setOnView
  rw [he]
  exact ⟨_, Audience.scene_commit hw _, hlike.apply_setAttribute (fun _ _ h => h.insert v) e.id⟩

/-- A single edge that is given by an id or a view is one of the graph. -/
theorem keeps_resolveEdge (hgraph : tree.graph = some a.graph) {v : Value}
    (hv : v.IsIdOrViewOf a.graph) {mark : EdgeView → Run Unit}
    (hmark : ∀ e : EdgeView, e.graph = a.graph →
      Run.Keeps (Reflagged a t flag graph tree) (mark e)) :
    Run.Keeps (Reflagged a t flag graph tree) (resolveEdge t v >>= mark) := by
  refine .bind_of_ok (.of_reads (reads_resolveEdge t v)) fun w e w' hw he => hmark e ?_
  refine graph_of_resolveEdge ?_ hv (congrArg Prod.fst he)
  rw [hw.tree_eq, hgraph]

section Marks

variable (hgraph : tree.graph = some a.graph) (hflag : tree.flagAttribute = flag.value)

include hflag

theorem keeps_markOn {e : EdgeView} (he : e.graph = a.graph) :
    Run.Keeps (Reflagged a t flag graph tree) (markOn a.host t e) := by
  refine (keeps_setFlag he tree.flagOn).of_exec fun w hw => ?_
  simp [markOn, hw.tree_eq, hflag]

theorem keeps_markOff {e : EdgeView} (he : e.graph = a.graph) :
    Run.Keeps (Reflagged a t flag graph tree) (markOff a.host t e) := by
  refine (keeps_setFlag he tree.flagOff).of_exec fun w hw => ?_
  simp [markOff, hw.tree_eq, hflag]

include hgraph

theorem keeps_resetMarks : Run.Keeps (Reflagged a t flag graph tree) (resetMarks a.host t) := by
  unfold resetMarks
  refine .bind_of_ok inferInstance fun w read w' hw hread => ?_
  rw [Run.exec_tree, hw.tree_eq] at hread
  cases hread
  rw [hgraph]
  show Run.Keeps _ (forEachEdge a.graph (markOff a.host t))
  unfold forEachEdge
  refine .bind inferInstance fun start => @Run.Keeps.forM _ _ _ _ fun id => ?_
  refine .bind inferInstance fun now => ?_
  split
  · -- the view that is looked up is one of the graph
    refine .bind_of_ok inferInstance fun w e w' _ he => ?_
    rw [Run.exec_ofExcept] at he
    exact keeps_markOff hflag (graph_eq_of_view (congrArg Prod.fst he))
  · infer_instance

/-- Ids stand for edges of the graph that the tree works on. -/
theorem keeps_markItems (ids : List Value) :
    Run.Keeps (Reflagged a t flag graph tree) (markItems a.host t (ids.map .named)) := by
  induction ids with
  | nil => exact .of_reads (.pure _)
  | cons id ids ih =>
    rw [List.map_cons]
    unfold markItems
    refine .bind_of_ok (.of_reads (reads_resolveItem t _)) fun w found w' hw hfound => ?_
    cases found with
    | none => exact ih
    | some e =>
      have hown := graph_of_named (congrArg Prod.fst hfound)
      rw [hw.tree_eq, hgraph] at hown
      have hmark : Run.Keeps (Reflagged a t flag graph tree) (markOn a.host t e) :=
        keeps_markOn hflag (Option.some.inj hown).symm
      infer_instance

/-- **Computing with an algorithm writes nothing but flags, and only on the graph, whether
it comes to its end or not.** -/
theorem keeps_compute (hstrategy : tree.strategy ≠ .custom) :
    Run.Keeps (Reflagged a t flag graph tree) (compute a.host t) := by
  -- the strategy stays, and so an algorithm chooses the edges, whatever flags there are
  have hitems : ∀ w, Reflagged a t flag graph tree w →
      ∃ algorithm, (treeItems a.host t).exec w = (chosenItems t algorithm).exec w := by
    intro w hw
    rw [← hw.tree_eq] at hstrategy
    exact exec_treeItems_of_ne_custom a.host hstrategy
  have hlisted : Run.Keeps (Reflagged a t flag graph tree) (treeItems a.host t) := by
    refine ⟨fun w hw => ?_⟩
    obtain ⟨algorithm, hexec⟩ := hitems w hw
    rw [hexec]
    exact (Run.Keeps.of_reads (reads_chosenItems t algorithm)).after w hw
  have hchosen : Run.Keeps (Reflagged a t flag graph tree)
      (markChosen a.host t (treeItems a.host t)) := by
    refine .bind_of_ok hlisted fun w items w' hw hok => ?_
    obtain ⟨algorithm, hexec⟩ := hitems w hw
    rw [hexec] at hok
    obtain ⟨ids, rfl⟩ := exec_chosenItems_ok (congrArg Prod.fst hok)
    have hmarks : Run.Keeps (Reflagged a t flag graph tree)
        (markItems a.host t (ids.map .named)) := keeps_markItems hgraph hflag ids
    have hread : Run.Keeps (Reflagged a t flag graph tree) (treeGraph t) :=
      .of_reads (reads_treeGraph t)
    infer_instance
  refine ⟨fun w hw => ?_⟩
  obtain ⟨entry, hexec⟩ := exec_computeTree_of_graph a.host (t := t) (w := w) (g := a.graph)
    (by rw [hw.tree_eq, hgraph]) (treeItems a.host t)
  have hall : Run.Keeps (Reflagged a t flag graph tree)
      (resetNoted a.host t entry >>= fun _ => markChosen a.host t (treeItems a.host t)) :=
    .bind (.bind inferInstance fun _ => keeps_resetMarks hgraph hflag) fun _ => hchosen
  unfold compute
  rw [hexec]
  exact hall.after w hw

end Marks
end Reflagged

/-! ## §3. Requests to a tree. -/

/-- What can be asked of a tree that marks edges: to compute, to reset all marks, to mark
a single edge, or to be configured anew. -/
inductive Marking where
  | compute
  | resetFlags
  | edgeOn (edge : Value)
  | edgeOff (edge : Value)
  | assign (property : TreeProperty) (v : Value)

namespace Marking

/-- Carry out a request. -/
def run (host : Host) (t : TreeRef) : Marking → Run Unit
  | .compute => EvolvingGraph.compute host t
  | .resetFlags => resetMarks host t
  | .edgeOn edge => do markOn host t (← resolveEdge t edge)
  | .edgeOff edge => do markOff host t (← resolveEdge t edge)
  | .assign property v => assignProperty t property v

/-- A request keeps to the graph that a tree works on: the tree is computed by an
algorithm, and an edge to mark is given by an id or a view of this graph.  The name of
the flag is fixed. -/
def KeepsTo (g : GraphRef) (tree : Tree) : Marking → Prop
  | .compute => tree.strategy ≠ .custom
  | .resetFlags => True
  | .edgeOn edge | .edgeOff edge => edge.IsIdOrViewOf g
  | .assign property _ => property ≠ .flagAttribute

end Marking

/-- An assignment of anything else leaves the graph of a tree and the name of its flag. -/
theorem SpanningTree.assign_property {β : Type} {tree tree' : SpanningTree β}
    {property : TreeProperty} {v : Value} (hproperty : property ≠ .flagAttribute)
    (h : tree.assign (property.assignment v) = .ok (some tree')) :
    tree'.graph = tree.graph ∧ tree'.flagAttribute = tree.flagAttribute := by
  cases property with
  | flagOn =>
    obtain ⟨-, rfl⟩ := setFlagOn_eq_some h
    exact ⟨rfl, rfl⟩
  | flagOff =>
    obtain ⟨-, rfl⟩ := setFlagOff_eq_some h
    exact ⟨rfl, rfl⟩
  | flagAttribute => exact absurd rfl hproperty
  | weightAttribute =>
    cases h
    exact ⟨rfl, rfl⟩
  | strategy =>
    obtain ⟨_, hset, ⟨⟩⟩ := map_eq_ok_iff.1 h
    obtain ⟨strategy, -, rfl⟩ := setStrategy_eq_ok hset
    exact ⟨rfl, rfl⟩
  | mode =>
    obtain ⟨_, hset, ⟨⟩⟩ := map_eq_ok_iff.1 h
    obtain ⟨mode, rfl⟩ := setMode_eq_ok hset
    exact ⟨rfl, rfl⟩

section Requests

variable {a : Audience} {t : TreeRef} {flag : Identifier} {graph : Graph} {tree : Tree}
  {w w' : World}

/-- What is assigned to the tree is found there, and nothing else is different. -/
theorem Reflagged.withTree (h : Reflagged a t flag graph tree w) (hgraph : tree.graph ≠ none)
    (tree' : Tree) : Reflagged a t flag graph tree' (w.withTree t tree') := by
  obtain ⟨graph', hw, hlike⟩ := h
  -- a tree that has a graph is not what stands for a tree that is missing
  have hpresent : t.index < w.trees.size := by
    by_contra hmissing
    apply hgraph
    rw [← hw.tree_eq, Heap.get, List.getD_eq_default _ _ (Nat.le_of_not_lt hmissing)]
    rfl
  refine ⟨graph', ⟨⟨hw.atRest.present, hw.atRest.emitter_eq, hw.atRest.passive⟩, hw.graph_eq,
    ?_⟩, hlike⟩
  exact Heap.get_set_self hpresent _

/-- An assignment writes nothing to the graph, and the tree still marks by the same flag. -/
theorem Reflagged.assigned (hgraph : tree.graph = some a.graph)
    (hflag : tree.flagAttribute = flag.value) (hw : Reflagged a t flag graph tree w)
    {property : TreeProperty} (hproperty : property ≠ .flagAttribute) (v : Value) :
    ∃ tree', tree'.graph = some a.graph ∧ tree'.flagAttribute = flag.value
      ∧ Reflagged a t flag graph tree' ((assignProperty t property v).exec w).2 := by
  rw [Run.exec_assignProperty]
  obtain ⟨tree', haccepted, hassign⟩ | ⟨-, hsame | hignored⟩ :=
    w.assign_cases t (property.assignment v)
  · rw [hw.tree_eq] at haccepted
    obtain ⟨hgraph', hflag'⟩ := SpanningTree.assign_property hproperty haccepted
    rw [hassign]
    exact ⟨tree', hgraph'.trans hgraph, hflag'.trans hflag, hw.withTree (by simp [hgraph]) tree'⟩
  · rw [hsame]
    exact ⟨tree, hgraph, hflag, hw⟩
  · rw [hignored]
    refine ⟨tree, hgraph, hflag, ?_⟩
    -- all that is left of a flag that is ignored is a line in the log
    cases property with
    | flagOn => exact (keeps_note (.ignoredFlagOn v)).after w hw
    | flagOff => exact (keeps_note (.ignoredFlagOff v)).after w hw
    | _ => exact hw

/-- **One request to a tree writes nothing but flags, and only on the tree's graph.** -/
theorem Marking.reflagged_run (hgraph : tree.graph = some a.graph)
    (hflag : tree.flagAttribute = flag.value) {m : Marking} (hm : m.KeepsTo a.graph tree)
    (hw : Reflagged a t flag graph tree w) :
    ∃ tree', tree'.graph = some a.graph ∧ tree'.flagAttribute = flag.value
      ∧ Reflagged a t flag graph tree' ((m.run a.host t).exec w).2 := by
  have hsame : Run.Keeps (Reflagged a t flag graph tree) (m.run a.host t) →
      ∃ tree', tree'.graph = some a.graph ∧ tree'.flagAttribute = flag.value
        ∧ Reflagged a t flag graph tree' ((m.run a.host t).exec w).2 :=
    fun hkeeps => ⟨tree, hgraph, hflag, hkeeps.after w hw⟩
  cases m with
  | compute => exact hsame (Reflagged.keeps_compute hgraph hflag hm)
  | resetFlags => exact hsame (Reflagged.keeps_resetMarks hgraph hflag)
  | edgeOn edge =>
    exact hsame (Reflagged.keeps_resolveEdge hgraph hm fun e he => Reflagged.keeps_markOn hflag he)
  | edgeOff edge =>
    exact hsame (Reflagged.keeps_resolveEdge hgraph hm fun e he => Reflagged.keeps_markOff hflag he)
  | assign property v => exact hw.assigned hgraph hflag hm v

/-- Requests to a tree, one after the other, each of which keeps to a graph: the worlds
that they lead from and to.  A request that fails is followed by others all the same. -/
inductive Markings (host : Host) (g : GraphRef) (t : TreeRef) (w : World) : World → Prop where
  | nil : Markings host g t w w
  | request {w' : World} (before : Markings host g t w w') (m : Marking)
      (keeps : m.KeepsTo g (w'.trees.get t.index)) : Markings host g t w ((m.run host t).exec w').2

/-- **Any number of requests write nothing but flags, and only on the tree's graph.** -/
theorem Markings.reflagged (h : Markings a.host a.graph t w w') (hgraph : tree.graph = some a.graph)
    (hflag : tree.flagAttribute = flag.value) (hw : Reflagged a t flag graph tree w) :
    ∃ tree', tree'.graph = some a.graph ∧ tree'.flagAttribute = flag.value
      ∧ Reflagged a t flag graph tree' w' := by
  induction h with
  | nil => exact ⟨tree, hgraph, hflag, hw⟩
  | request before m keeps ih =>
    obtain ⟨tree', hgraph', hflag', hw'⟩ := ih
    rw [hw'.tree_eq] at keeps
    exact m.reflagged_run hgraph' hflag' keeps hw'

end Requests

/-! ## §4. Clearing. -/

/-- **Whatever marks a tree has been asked to make on the edges of its graph, in whatever
order and with whatever failures, clearing the tree comes to its end and leaves the graph
as it was before the first of them, with the flag taken off every edge.  It is heard, in
the order of the edges, of each edge that had the flag and of the value that it had, and
of nothing else.** -/
theorem clear_undoes_markings {a : Audience} {t : TreeRef} {graph : Graph} {tree : Tree}
    {flag : String} {w w' : World} (hw : Scene a.graph t a.Attends graph tree w)
    (hreachable : graph.Reachable) (hgraph : tree.graph = some a.graph)
    (hflag : tree.flagAttribute = .str flag) (hmarkings : Markings a.host a.graph t w w') :
    ∃ cleared, graph.Painted cleared (fun _ attributes => attributes.erase (.text flag))
      ∧ (clearMarks a.host t).exec w' = (.ok (), (w'.put a.graph cleared).receive
          (((w'.objectAt a.graph).graph.removals (.ofText flag)
            graph.edges.entries).flatMap a.trace)) := by
  have hrefl : Reflagged a t (.ofText flag) graph tree w := .refl hw
  obtain ⟨tree', hgraph', hflag', graph', hw', hlike⟩ := hmarkings.reflagged hgraph hflag hrefl
  have hg' := hreachable.coherent.of_sameShape hlike.sameShape
  obtain ⟨cleared, hpainted, hexec⟩ := Audience.exec_clearMarks hw' hg' hgraph' hflag'
  refine ⟨cleared, hlike.painted_erase hpainted, ?_⟩
  rw [hexec, hw'.graph_eq, hlike.edges]

/-- The world of the triangle after a request to its tree. -/
def afterMarking (m : Marking) (w : World) : World :=
  ((m.run (Session.hostOfDepth 1) ⟨0⟩).exec w).2

/-- The triangle after its tree has been computed, and computed again, in vain, with the
flags for weights, and one edge has been marked on top. -/
def remarkedTriangle : World :=
  afterMarking (.edgeOn (.str "back")) <| afterMarking .compute <|
    afterMarking (.assign .weightAttribute (.str "SpanningTree.flag")) <| afterMarking .compute <|
      listenedTriangle .prim .distance

theorem markings_remarkedTriangle :
    Markings triangleAudience.host triangleAudience.graph ⟨0⟩ (listenedTriangle .prim .distance)
      remarkedTriangle := by
  -- what a request asks of the tree is asked of its strategy, and no world is evaluated for more
  have hafter : ∀ {w' : World} {m : Marking},
      (∀ tree : Tree, tree.strategy = (w'.trees.get 0).strategy →
        m.KeepsTo triangleAudience.graph tree) →
      Markings triangleAudience.host triangleAudience.graph ⟨0⟩ (listenedTriangle .prim .distance)
        w' →
      Markings triangleAudience.host triangleAudience.graph ⟨0⟩ (listenedTriangle .prim .distance)
        (afterMarking m w') := fun keeps before => before.request _ (keeps _ rfl)
  refine hafter (fun _ _ => trivial) (hafter ?_ (hafter (fun _ _ => ?_) (hafter ?_ .nil)))
  · intro tree htree
    show tree.strategy ≠ .custom
    rw [htree]
    decide +kernel
  · exact TreeProperty.noConfusion
  · intro tree htree
    show tree.strategy ≠ .custom
    rw [htree]
    decide +kernel

theorem clear_undoes_markings_triangle :
    ∃ cleared, triangle.Painted cleared
        (fun _ attributes => attributes.erase (.text "SpanningTree.flag"))
      ∧ (clearMarks triangleAudience.host ⟨0⟩).exec remarkedTriangle
        = (.ok (), (remarkedTriangle.put triangleAudience.graph cleared).receive
          (((remarkedTriangle.objectAt triangleAudience.graph).graph.removals
            (.ofText "SpanningTree.flag") triangle.edges.entries).flatMap
              triangleAudience.trace)) :=
  clear_undoes_markings (scene_listenedTriangle .prim .distance) reachable_triangle rfl rfl
    markings_remarkedTriangle

/-- What the recorder hears when the tree is cleared: computing has failed, so it is only
the edge on top that is marked. -/
example :
    (((clearMarks (Session.hostOfDepth 1) ⟨0⟩).exec remarkedTriangle).2.received.drop
      remarkedTriangle.received.length).map (fun receipt => match receipt.event with
        | .attributeRemoved _ (.str id) _ (.bool flag) => (id, flag)
        | _ => ("", true))
      = [("out", false), ("back", true), ("home", false), ("next", false),
        ("round", false)] := by decide +kernel

end EvolvingGraph
