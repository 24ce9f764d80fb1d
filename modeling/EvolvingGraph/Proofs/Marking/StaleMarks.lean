/-
  EvolvingGraph.Proofs.Marking.StaleMarks
  ───────────────────────────────────────
  **OLD MARKS DO NOT MATTER.**

  To compute a tree, all marks are reset before anything is read.  So two graphs
  that differ in their flags only, whether these are missing, old or nonsense,
  are marked alike, or the computation fails on both for the same reason; and
  to compute a tree twice is to compute it once.  This also holds if the flags
  are the weights, and for every builder that looks at nothing but the graph.

  Main statements:
    * `Marker.Alike.reset` — after the reset both graphs read alike;
    * `compute_forgets_marks` — whatever the marks were before, they end the same.
-/
import EvolvingGraph.Proofs.Marking.Impartial
import EvolvingGraph.Proofs.Marking.SpanningForest

namespace EvolvingGraph

/-! ## §1. Resetting and what comes after. -/

/-- What is done to compute a tree once the marks are reset. -/
def markChosen (host : Host) (t : TreeRef) (build : Run (List TreeItem)) : Run Unit := do
  let items ← build
  let marked ← markItems host t items
  let current ← treeGraph t
  World.note (.computed marked (← World.graph current).edges.size)

/-- Write a line and reset the marks. -/
def resetNoted (host : Host) (t : TreeRef) (entry : LogEntry) : Run Unit := do
  World.note entry
  resetMarks host t

/-- To compute a tree is to reset the marks and go on from there. -/
theorem exec_computeTree_of_graph (host : Host) {t : TreeRef} {w : World} {g : GraphRef}
    (h : (w.trees.get t.index).graph = some g) (build : Run (List TreeItem)) :
    ∃ entry, (computeTree host t build).exec w
      = (resetNoted host t entry >>= fun _ => markChosen host t build).exec w := by
  refine ⟨.computing (w.trees.get t.index).strategy (w.trees.get t.index).mode
    ((w.objectAt g).graph.describe (w.objectAt g).emitter.id), ?_⟩
  simp only [computeTree, resetNoted, markChosen, Run.exec_bind, Run.exec_tree, h,
    Run.exec_graphObject, Run.exec_note]

namespace Marker

variable {m : Marker} {related : GraphRef → Attributes → Attributes → Prop}
  {seen : GraphRef → Key → Prop} {w w' : World} {build : Run (List TreeItem)}

theorem Related.scene (h : m.Related related w w') (hpresent : w.HasGraph m.g) :
    Scene m.g m.t (AllPassive m.host m.recorders m.notes m.g) (w.objectAt m.g).graph m.tree w :=
  ⟨⟨hpresent, h.twins.quiet.recorders_eq, h.twins.quiet.passive m.g⟩, rfl, h.tree_eq⟩

/-- Every link of the tree's graph is marked as one outside the tree. -/
def AllOff (m : Marker) (w : World) : Prop :=
  ∀ a b l, (w.objectAt m.g).graph.link? a b = some l →
    l.attributes.get? m.flag.key = some m.tree.flagOff

/-- Resetting the marks does not fail, and it leaves no mark. -/
theorem exec_resetNoted (h : m.Related related w w') (hpresent : w.HasGraph m.g)
    (hg : (w.objectAt m.g).graph.Coherent) (entry : LogEntry) :
    ∃ w₁, (resetNoted m.host m.t entry).exec w = (.ok (), w₁) ∧ m.AllOff w₁ := by
  have honlookers := onlookers_allPassive m.host m.recorders m.notes m.g m.t
  obtain ⟨w₁, graph₁, hexec, hscene, hpainted⟩ := honlookers.exec_resetMarks
    (honlookers.scene_note (h.scene hpresent) entry) hg m.graph_eq m.flag_eq
  refine ⟨w₁, ?_, fun a b l hl => ?_⟩
  · unfold resetNoted
    rw [Run.exec_bind, Run.exec_note]
    exact hexec
  · rw [hscene.graph_eq] at hl
    exact hpainted.get?_link hg hl

/-- **Graphs that read alike but for the flags read alike once these are reset.** -/
theorem Alike.reset (h : m.Alike m.butFlag w w') (hpresent : w.HasGraph m.g)
    (hg : (w.objectAt m.g).graph.Coherent) (entry entry' : LogEntry) :
    ∃ w₁ w₁', (resetNoted m.host m.t entry).exec w = (.ok (), w₁)
      ∧ (resetNoted m.host m.t entry').exec w' = (.ok (), w₁')
      ∧ m.AllOff w₁ ∧ m.Alike m.afterReset w₁ w₁' := by
  have hpresent' : w'.HasGraph m.g := by
    unfold World.HasGraph
    rw [h.twins.size]
    exact hpresent
  have hg' := hg.of_sameShape (h.twins.graphs m.g).sameShape
  obtain ⟨w₁, hexec, hoff⟩ := exec_resetNoted h hpresent hg entry
  obtain ⟨w₁', hexec', hoff'⟩ := exec_resetNoted h.right hpresent' hg' entry'
  have hpaired : Run.Paired (m.Alike m.butFlag) Eq (resetNoted m.host m.t entry) (fun _ _ => True)
      (resetNoted m.host m.t entry') :=
    (paired_note entry entry').bind fun _ _ _ => m.paired_resetMarks
  have hafter := (hpaired w w' h).1
  rw [hexec, hexec'] at hafter
  refine ⟨w₁, w₁', hexec, hexec', hoff, ?_, hafter.tree_eq⟩
  refine hafter.twins.of_graphs fun x => ?_
  -- on the tree's graph the flags are all the same, elsewhere they are not looked at
  by_cases hx : x = m.g
  · subst hx
    exact ((hafter.twins.graphs m.g).of_written hoff hoff').mono fun _ _ hread k _ =>
      hread k trivial
  · exact (hafter.twins.graphs x).mono fun _ _ hread k hk => hread k (hk.resolve_left hx)

/-! ## §2. What is done after the reset. -/

/-- Once the marks are reset, the rest goes alike. -/
theorem Impartial.paired_markChosen (h : m.Impartial build) :
    m.Paired m.afterReset (markChosen m.host m.t build) fun _ _ => True := by
  unfold markChosen
  refine h.paired.bind ?_
  rintro items _ ⟨rfl, habout⟩
  refine (paired_markItems habout).bind ?_
  rintro count _ rfl
  refine m.paired_treeGraph.bind ?_
  rintro _ _ ⟨rfl, rfl⟩
  exact (paired_graph m.g).bind fun graph graph' _ => paired_note _ _

/-- What is done after the reset writes nothing but flags. -/
theorem Impartial.keeps_markChosen (h : m.Impartial build)
    (hkeep : ∀ x a a' v, related x a a' → related x a (a'.insert m.flag v)) :
    m.Keeps related w (markChosen m.host m.t build) := by
  have hbuild : m.Keeps related w build := by
    refine ⟨fun w' hw' => ?_⟩
    rw [h.reads w' (.refl hw'.twins.quiet' hw'.tree_eq')]
    exact hw'
  refine .bind hbuild fun items => .bind (keeps_markItems hkeep items) fun count => ?_
  exact .bind (.of_reads (reads_treeGraph m.t)) fun x =>
    .bind (.of_reads (.graph x)) fun graph => keeps_note _

/-- Neither does the whole computation. -/
theorem Impartial.keeps_computeTree (h : m.Impartial build)
    (hkeep : ∀ x a a' v, related x a a' → related x a (a'.insert m.flag v)) :
    m.Keeps related w (computeTree m.host m.t build) := by
  refine ⟨fun w' hw' => ?_⟩
  have hgraph : (w'.trees.get m.t.index).graph = some m.g := by
    rw [hw'.tree_eq']
    exact m.graph_eq
  obtain ⟨entry, hexec⟩ := exec_computeTree_of_graph m.host hgraph build
  rw [hexec]
  have hreset : m.Keeps related w (resetNoted m.host m.t entry) :=
    .bind (keeps_note entry) fun _ => keeps_resetMarks hkeep
  exact (hreset.bind fun _ => h.keeps_markChosen hkeep).after w' hw'

/-! ## §3. The two runs. -/

/-- Once the marks are reset, the attributes of an edge keep their names in order. -/
def inOrder (m : Marker) (x : GraphRef) (a a' : Attributes) : Prop :=
  x = m.g → a.contains m.flag.key = true ∧ a'.identifiers = a.identifiers

theorem inOrder_insert (x : GraphRef) (a a' : Attributes) (v : Value) (h : m.inOrder x a a') :
    m.inOrder x a (a'.insert m.flag v) := by
  intro hx
  obtain ⟨hflag, hnames⟩ := h hx
  have hflag' : a'.contains m.flag.key = true := by
    rw [Graph.contains_iff_identifiers, hnames, ← Graph.contains_iff_identifiers]
    exact hflag
  rw [Graph.identifiers_insert_of_contains hflag']
  exact h hx

theorem AllOff.related_inOrder (h : m.AllOff w) (hw : m.Alike seen w w') :
    m.Related m.inOrder w w := by
  refine ⟨Twins.of_graphs (.refl (fun _ _ => rfl) hw.twins.quiet) fun x => ?_, hw.tree_eq⟩
  refine .refl fun a b l hl hx => ⟨?_, rfl⟩
  subst hx
  rw [Catalog.contains_iff_get?]
  exact ⟨_, h a b l hl⟩

/-- From the reset on, both computations go alike. -/
theorem Impartial.exec_computeTree (h : m.Impartial build) (hw : m.Alike m.butFlag w w')
    (hpresent : w.HasGraph m.g) (hg : (w.objectAt m.g).graph.Coherent) :
    ∃ w₁, m.Related m.inOrder w₁ w₁
      ∧ (computeTree m.host m.t build).exec w = (markChosen m.host m.t build).exec w₁
      ∧ m.Alike m.afterReset ((computeTree m.host m.t build).exec w).2
        ((computeTree m.host m.t build).exec w').2
      ∧ ((computeTree m.host m.t build).exec w').1
        = ((computeTree m.host m.t build).exec w).1 := by
  have hgraph : (w.trees.get m.t.index).graph = some m.g := by
    rw [hw.tree_eq]
    exact m.graph_eq
  have hgraph' : (w'.trees.get m.t.index).graph = some m.g := by
    rw [hw.tree_eq']
    exact m.graph_eq
  obtain ⟨entry, hexec⟩ := exec_computeTree_of_graph m.host hgraph build
  obtain ⟨entry', hexec'⟩ := exec_computeTree_of_graph m.host hgraph' build
  obtain ⟨w₁, w₁', hreset, hreset', hoff, hafter⟩ := hw.reset hpresent hg entry entry'
  rw [Run.exec_bind, hreset] at hexec
  rw [Run.exec_bind, hreset'] at hexec'
  obtain ⟨hrelated, halike⟩ := h.paired_markChosen w₁ w₁' hafter
  refine ⟨w₁, hoff.related_inOrder hafter, hexec, ?_, ?_⟩ <;> rw [hexec, hexec']
  · exact hrelated
  · exact (halike.mono fun _ _ _ => rfl).eq

end Marker

/-- **Whatever the marks were before, a tree that chooses by the graph is computed
with the same result, also where that is a failure, and each edge has the same
flag in the end.  A second computation comes to the same result and leaves the
graph exactly as it is.** -/
theorem compute_forgets_marks (m : Marker) {w w' : World} (hchoice : m.ChoosesByGraph)
    (hw : m.Alike m.butFlag w w') (hpresent : w.HasGraph m.g)
    (hreachable : (w.objectAt m.g).graph.Reachable) :
    ∃ result after after' again, (compute m.host m.t).exec w = (result, after)
      ∧ (compute m.host m.t).exec w' = (result, after') ∧ m.Alike m.afterReset after after'
      ∧ (∀ id default, (after'.objectAt m.g).graph.readAttribute .edge id m.flag.value default
        = (after.objectAt m.g).graph.readAttribute .edge id m.flag.value default)
      ∧ (compute m.host m.t).exec after = (result, again)
      ∧ (again.objectAt m.g).graph = (after.objectAt m.g).graph := by
  have himpartial := hchoice.impartial
  have hg := hreachable.coherent
  obtain ⟨w₁, horder, hfirst, hafter, hresult⟩ := himpartial.exec_computeTree hw hpresent hg
  -- to compute the tree is to write flags, so there is a twin to compare with
  have htwins : m.Alike m.butFlag w ((compute m.host m.t).exec w).2 :=
    (himpartial.keeps_computeTree fun _ _ _ v h => h.insert_unseen (fun hne => hne rfl) v).after w
      (Marker.Alike.refl hw.twins.quiet hw.tree_eq)
  obtain ⟨-, -, -, hagain, hresult'⟩ := himpartial.exec_computeTree htwins hpresent hg
  have hread : ∀ {v v' : World}, m.Alike m.afterReset v v' →
      Graph.Like (Catalog.AgreeOn fun _ => True) (v.objectAt m.g).graph (v'.objectAt m.g).graph :=
    fun h => (h.twins.graphs m.g).mono fun _ _ hagree k _ => hagree k (.inl rfl)
  refine ⟨((compute m.host m.t).exec w).1, ((compute m.host m.t).exec w).2,
    ((compute m.host m.t).exec w').2,
    ((compute m.host m.t).exec ((compute m.host m.t).exec w).2).2, rfl, Prod.ext hresult rfl,
    hafter, ?_, Prod.ext hresult' rfl, ?_⟩
  · exact fun id default => (hread hafter).readAttribute_eq id m.flag.value default
  · have hnames : ∀ {v : World}, m.Related m.inOrder w₁ v →
        Graph.Like (fun a a' => a'.identifiers = a.identifiers) (w₁.objectAt m.g).graph
          (v.objectAt m.g).graph :=
      fun h => (h.twins.graphs m.g).mono fun _ _ hnames => (hnames rfl).2
    have hone := (himpartial.keeps_markChosen Marker.inOrder_insert).after w₁ horder
    rw [← hfirst] at hone
    have htwo := (himpartial.keeps_computeTree Marker.inOrder_insert).after _ hone
    have hexact := (hnames hone).exact_of_identifiers (hnames htwo) (hread hagain)
    exact hexact.eq_of_coherent (hg.of_sameShape (htwins.twins.graphs m.g).sameShape)

/-- A tree on the triangle whose flags are its weights, with Kruskal's algorithm
for a builder. -/
def selfWeighing : Marker where
  host := Session.hostOfDepth 1
  recorders := .empty
  notes := fun _ _ _ => []
  g := ⟨0⟩
  t := ⟨0⟩
  tree := { plainTree .custom .distance with
    weightName := .str "SpanningTree.flag"
    builder := some ⟨[], .kruskal⟩ }
  flag := .ofText "SpanningTree.flag"
  graph_eq := rfl
  flag_eq := rfl

/-- A world with the triangle and this tree; no edge has a flag. -/
def selfWeighingWorld : World :=
  { triangleWorld .custom .distance with trees := ⟨[selfWeighing.tree]⟩ }

theorem quiet_selfWeighingWorld :
    Quiet selfWeighing.host selfWeighing.recorders selfWeighing.notes selfWeighingWorld := by
  refine ⟨rfl, fun x s hs => ?_⟩
  obtain ⟨_ | i⟩ := x
  · rw [List.mem_singleton.1 hs]
    exact passive_silent 0 .empty 0
  · exact absurd hs List.not_mem_nil

/-- The same world after a flag has been written on one of the edges. -/
def staleWorld : World :=
  ((setOnView selfWeighing.host ⟨⟨0⟩, .str "out", .int 1, .int 2⟩ (.str "SpanningTree.flag")
    (.str "stale")).exec selfWeighingWorld).2

theorem compute_forgets_marks_triangle :
    ∃ result after after' again,
      (compute selfWeighing.host ⟨0⟩).exec selfWeighingWorld = (result, after)
      ∧ (compute selfWeighing.host ⟨0⟩).exec staleWorld = (result, after')
      ∧ selfWeighing.Alike selfWeighing.afterReset after after'
      ∧ (∀ id default, (after'.objectAt ⟨0⟩).graph.readAttribute .edge id
          (.str "SpanningTree.flag") default
        = (after.objectAt ⟨0⟩).graph.readAttribute .edge id (.str "SpanningTree.flag") default)
      ∧ (compute selfWeighing.host ⟨0⟩).exec after = (result, again)
      ∧ (again.objectAt ⟨0⟩).graph = (after.objectAt ⟨0⟩).graph :=
  compute_forgets_marks selfWeighing
    (.custom ⟨[], .kruskal⟩ rfl rfl (Marker.impartial_callBuilder rfl trivial))
    ((Marker.keeps_setFlag (fun _ _ _ v h => h.insert_unseen (fun hne => hne rfl) v) _ _).after _
      (Marker.Alike.refl quiet_selfWeighingWorld rfl))
    Nat.one_pos reachable_triangle

end EvolvingGraph
