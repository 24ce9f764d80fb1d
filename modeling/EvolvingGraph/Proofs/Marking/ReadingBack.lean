/-
  EvolvingGraph.Proofs.Marking.ReadingBack
  ────────────────────────────────────────
  **WHICH MARKS ARE FOUND AGAIN.**

  To mark an edge is to store the flag of tree edges on it; to look for marked edges is
  to compare what is stored with that flag.  What is stored is never anything but one of
  the two flags.  So the edges that a computation has marked are found again, in order
  and each once, if the flag of tree edges is recognised as equal to itself and the other
  flag can be told apart from it.

  A configuration is checked for neither.  NaN is not equal to itself, and nothing that is
  marked with it is found; and two flags may have been compared in one order only, while
  marks are compared in the other one.

  Main statements:
    * `computeTree_eq_telling` — which edges a computation marks;
    * `Onlookers.exec_computeTelling` — what is stored on each edge afterwards;
    * `marks_read_back` — when exactly the marked edges are found again;
    * `marks_not_read_back_nan` — with NaN for a flag, none is.
-/
import EvolvingGraph.Proofs.Marking.Assignments
import EvolvingGraph.Proofs.Marking.Listed
import EvolvingGraph.Session.Requests

namespace EvolvingGraph

/-! ## §1. Which edges are marked. -/

/-- Mark the edges that items stand for, and tell through which views. -/
def markEach (host : Host) (t : TreeRef) : List TreeItem → Run (List EdgeView)
  | [] => pure []
  | item :: rest => do
    match ← resolveItem t item with
    | some e =>
      markOn host t e
      return e :: (← markEach host t rest)
    | none => markEach host t rest

/-- Compute the tree, and tell which edges are marked as tree edges. -/
def computeTelling (host : Host) (t : TreeRef) (build : Run (List TreeItem)) :
    Run (List EdgeView) := do
  let tree ← World.tree t
  match tree.graph with
  | none => World.note .nothingToCompute; return []
  | some g =>
    let object ← World.graphObject g
    World.note (.computing tree.strategy tree.mode (object.graph.describe object.emitter.id))
    resetMarks host t
    let marked ← markEach host t (← build)
    let current ← treeGraph t
    World.note (.computed marked.length (← World.graph current).edges.size)
    return marked

theorem markItems_eq_each (host : Host) (t : TreeRef) (items : List TreeItem) :
    markItems host t items = List.length <$> markEach host t items := by
  induction items with
  | nil => rfl
  | cons item rest ih =>
    unfold markItems markEach
    rw [map_bind]
    congr 1
    funext found
    cases found with
    | none => exact ih
    | some e =>
      simp only [ih, map_bind, map_pure, bind_map_left]
      rfl

/-- **Telling which edges are marked changes nothing in the computation.** -/
theorem computeTree_eq_telling (host : Host) (t : TreeRef) (build : Run (List TreeItem)) :
    computeTree host t build = (fun _ => ()) <$> computeTelling host t build := by
  unfold computeTree computeTelling
  rw [map_bind]
  congr 1
  funext tree
  cases tree.graph with
  | none => simp only [map_bind, map_pure, bind_pure_unit]
  | some g => simp only [markItems_eq_each, map_bind, map_pure, bind_pure_unit, bind_map_left]

/-- The views through which a computation of the tree, made in a world, marks edges. -/
def markedThrough (host : Host) (t : TreeRef) (w : World) : List EdgeView :=
  match ((computeTelling host t (treeItems host t)).exec w).1 with
  | .ok marked => marked
  | .error _ => []

theorem exec_computeTelling_of_done {host : Host} {t : TreeRef} {w w' : World}
    (hdone : (compute host t).exec w = (.ok (), w')) :
    (computeTelling host t (treeItems host t)).exec w = (.ok (markedThrough host t w), w') := by
  unfold compute at hdone
  rw [computeTree_eq_telling, Run.exec_map] at hdone
  unfold markedThrough
  revert hdone
  rcases (computeTelling host t (treeItems host t)).exec w with ⟨_ | marked, w₁⟩
  · exact fun hdone => by cases hdone
  · rintro ⟨⟩
    rfl

/-! ## §2. What is stored. -/

/-- Whether two views show the same edge. -/
def EdgeView.isSameEdge (e f : EdgeView) : Bool := e.graph == f.graph && e.id.key? == f.id.key?

/-- The view of an edge of a graph. -/
def EdgeEntry.view (f : EdgeEntry) (g : GraphRef) : EdgeView :=
  ⟨g, f.1.value, f.2.source.value, f.2.target.value⟩

theorem EdgeView.isSameEdge_view {e : EdgeView} {f : EdgeEntry} {g : GraphRef} :
    e.isSameEdge (f.view g) = true ↔ e.graph = g ∧ e.id.key? = some f.1.key := by
  unfold isSameEdge EdgeEntry.view
  rw [Bool.and_eq_true, beq_iff_eq, beq_iff_eq, f.1.key?_value]

namespace Onlookers

variable {host : Host} {g x : GraphRef} {t : TreeRef} {calm : World → Prop} {graph graph' : Graph}
  {tree : Tree} {w w' : World} {flag : Identifier} {marked : List EdgeView}

/-- In a calm world a change to another graph leaves the graph and the tree as they are,
and the world calm. -/
def Apart (host : Host) (g : GraphRef) (t : TreeRef) (calm : World → Prop) (x : GraphRef) : Prop :=
  ∀ w c, calm w → calm ((commit host x c).exec w).2
    ∧ ((commit host x c).exec w).2.objectAt g = w.objectAt g
    ∧ ((commit host x c).exec w).2.trees.get t.index = w.trees.get t.index

/-- A mark on an edge of another graph is none on this one. -/
theorem scene_markOn_apart (hapart : Apart host g t calm x) (hw : Scene g t calm graph tree w)
    {e : EdgeView} (he : e.graph = x) : Scene g t calm graph tree ((markOn host t e).exec w).2 := by
  unfold markOn setOnView
  simp only [Run.exec_bind, Run.exec_tree, he]
  obtain ⟨hcalm, hobject, htree⟩ := hapart w
    (.setAttribute .edge e.id (w.trees.get t.index).flagAttribute (w.trees.get t.index).flagOn)
    hw.atRest
  exact ⟨hcalm, by rw [hobject, hw.graph_eq], by rw [htree, hw.tree_eq]⟩

/-- The flag that an edge has once some views have been marked. -/
def paintThrough (tree : Tree) (g : GraphRef) (flag : Identifier) (marked : List EdgeView)
    (f : EdgeEntry) (a : Attributes) : Attributes :=
  if marked.any (·.isSameEdge (f.view g)) then a.insert flag tree.flagOn else a

theorem paintThrough_cons (e : EdgeView) (f : EdgeEntry) (a : Attributes) :
    paintThrough tree g flag marked f (paintThrough tree g flag [e] f a)
      = paintThrough tree g flag (e :: marked) f a := by
  unfold paintThrough
  by_cases he : e.isSameEdge (f.view g) = true <;>
    by_cases hmarked : marked.any (·.isSameEdge (f.view g)) = true <;>
    simp [he, hmarked, Catalog.insert_insert]

/-- A mark that has been made is on the edge that the view shows. -/
theorem painted_of_markOn (h : Onlookers host g t calm) (hw : Scene g t calm graph tree w)
    (hg : graph.Coherent) (hflag : tree.flagAttribute = flag.value) {e : EdgeView}
    (hapart : e.graph ≠ g → Apart host g t calm e.graph)
    (hdone : (markOn host t e).exec w = (.ok (), w')) :
    ∃ graph', Scene g t calm graph' tree w'
      ∧ graph.Painted graph' (paintThrough tree g flag [e]) := by
  by_cases hown : e.graph = g
  · by_cases hfound : ∃ f ∈ graph.edges.entries, e.id.key? = some f.1.key
    · obtain ⟨f, hf, hid⟩ := hfound
      obtain ⟨w₁, graph₁, hexec, hw₁, hpainted⟩ := h.exec_markOn hw hg hflag hown hf hid
      rw [hexec] at hdone
      cases hdone
      refine ⟨graph₁, hw₁, hpainted.congr fun f' _ a => ?_⟩
      have hsame : e.isSameEdge (EdgeEntry.view f' g) = true ↔ f'.1.key = f.1.key := by
        rw [EdgeView.isSameEdge_view, hid, Option.some_inj]
        exact ⟨fun h => h.2.symm, fun h => ⟨hown, h.symm⟩⟩
      unfold Graph.writing paintThrough
      simp only [List.map_singleton, List.mem_singleton, List.any_cons, List.any_nil,
        Bool.or_false, hsame]
    · rw [exec_markOn_missing hw hown fun f hf hid => hfound ⟨f, hf, hid⟩] at hdone
      cases hdone
  · have hscene := scene_markOn_apart (hapart hown) hw rfl
    rw [hdone] at hscene
    refine ⟨graph, hscene, (Graph.Painted.refl graph).congr fun f _ a => ?_⟩
    unfold paintThrough
    simp [EdgeView.isSameEdge_view, hown]

/-- Marking one item after the other leaves marks where they were made, and no others. -/
theorem painted_of_markEach (h : Onlookers host g t calm) (hw : Scene g t calm graph tree w)
    (hg : graph.Coherent) (hflag : tree.flagAttribute = flag.value) {items : List TreeItem}
    (hapart : ∀ e ∈ marked, e.graph ≠ g → Apart host g t calm e.graph)
    (hdone : (markEach host t items).exec w = (.ok marked, w')) :
    ∃ graph', Scene g t calm graph' tree w'
      ∧ graph.Painted graph' (paintThrough tree g flag marked) := by
  induction items generalizing w graph marked with
  | nil =>
    cases hdone
    refine ⟨graph, hw, (Graph.Painted.refl graph).congr fun f _ a => ?_⟩
    simp [paintThrough]
  | cons item rest ih =>
    unfold markEach at hdone
    rw [Run.exec_bind_eq_ok_iff] at hdone
    obtain ⟨found, w₁, hfound, hdone⟩ := hdone
    have hsame := reads_resolveItem t item w
    rw [hfound] at hsame
    cases hsame
    cases found with
    | none => exact ih hw hg hapart hdone
    | some e =>
      rw [Run.exec_bind_eq_ok_iff] at hdone
      obtain ⟨_, w₂, hmark, hdone⟩ := hdone
      rw [Run.exec_bind_eq_ok_iff] at hdone
      obtain ⟨others, w₃, hrest, hdone⟩ := hdone
      cases hdone
      obtain ⟨hfirst, hothers⟩ := List.forall_mem_cons.1 hapart
      obtain ⟨graph₁, hw₁, hpainted₁⟩ := h.painted_of_markOn hw hg hflag hfirst hmark
      obtain ⟨graph₂, hw₂, hpainted₂⟩ :=
        ih hw₁ (hg.of_sameShape hpainted₁.sameShape) hothers hrest
      exact ⟨graph₂, hw₂, (hpainted₁.trans hpainted₂).congr fun f _ a => paintThrough_cons e f a⟩

/-- **After a computation each edge has one of the two flags: that of tree edges exactly
if it has been marked through some view.** -/
theorem exec_computeTelling (h : Onlookers host g t calm) (hw : Scene g t calm graph tree w)
    (hg : graph.Coherent) (hgraph : tree.graph = some g) (hflag : tree.flagAttribute = flag.value)
    {build : Run (List TreeItem)} (hbuild : ∀ v, calm v → v.trees.get t.index = tree →
      (build.exec v).2 = v)
    (hapart : ∀ e ∈ marked, e.graph ≠ g → Apart host g t calm e.graph)
    (hdone : (computeTelling host t build).exec w = (.ok marked, w')) :
    ∃ graph', Scene g t calm graph' tree w' ∧ graph.Painted graph' fun f a =>
      a.insert flag (if marked.any (·.isSameEdge (f.view g)) then tree.flagOn
        else tree.flagOff) := by
  obtain ⟨w₁, graph₁, hreset, hw₁, hoff⟩ := h.exec_resetMarks (h.scene_note hw
    (.computing tree.strategy tree.mode
      ((w.objectAt g).graph.describe (w.objectAt g).emitter.id))) hg hgraph hflag
  -- the computation has come to its end, so each of its steps has
  unfold computeTelling at hdone
  rw [Run.exec_bind, Run.exec_tree] at hdone
  simp only [hw.tree_eq, hgraph] at hdone
  rw [Run.exec_bind_eq_ok_iff] at hdone
  obtain ⟨_, _, hobject, hdone⟩ := hdone
  cases hobject
  rw [Run.exec_bind_eq_ok_iff] at hdone
  obtain ⟨_, _, hnoted, hdone⟩ := hdone
  cases hnoted
  rw [Run.exec_bind_eq_ok_iff] at hdone
  obtain ⟨_, w₁', hreset', hdone⟩ := hdone
  obtain rfl : w₁ = w₁' := congrArg Prod.snd (hreset.symm.trans hreset')
  rw [Run.exec_bind_eq_ok_iff] at hdone
  obtain ⟨items, w₂, hbuilt, hdone⟩ := hdone
  have hread := hbuild w₁ hw₁.atRest hw₁.tree_eq
  rw [hbuilt] at hread
  cases hread
  rw [Run.exec_bind_eq_ok_iff] at hdone
  obtain ⟨marked', w₂, heach, hdone⟩ := hdone
  rw [Run.exec_bind_eq_ok_iff] at hdone
  obtain ⟨current, w₃, hcurrent, hdone⟩ := hdone
  have hsame := reads_treeGraph t w₂
  rw [hcurrent] at hsame
  cases hsame
  cases hdone
  obtain ⟨graph₂, hw₂, hon⟩ := h.painted_of_markEach hw₁ (hg.of_sameShape hoff.sameShape)
    hflag hapart heach
  refine ⟨graph₂, h.scene_note hw₂ _, (hoff.trans hon).congr fun f hf a => ?_⟩
  have hall : f.1.key ∈ graph.edges.identifiers.map (·.key) :=
    List.mem_map_of_mem (List.mem_map_of_mem hf)
  unfold Graph.writing paintThrough
  rw [if_pos hall]
  split
  · rw [Catalog.insert_insert]
  · rfl

end Onlookers

/-! ## §3. What is found. -/

section Filtering

variable {α : Type}

/-- Whether a test that can fail has been passed. -/
def isPassed : Except Error Bool → Bool
  | .ok passed => passed
  | .error _ => false

theorem filterAuxM_eq_ok_iff {f : α → Except Error Bool} {xs acc ys : List α} :
    List.filterAuxM f xs acc = .ok ys
      ↔ (∀ x ∈ xs, ∃ b, f x = .ok b) ∧ ys = (xs.filter fun x => isPassed (f x)).reverse ++ acc := by
  induction xs generalizing acc with
  | nil =>
    unfold List.filterAuxM
    rw [pure_eq_ok_iff]
    simp [eq_comm]
  | cons x xs ih =>
    unfold List.filterAuxM
    rw [bind_eq_ok_iff, List.forall_mem_cons]
    cases hx : f x with
    | error e => simp
    | ok b => cases b <;> simp [ih, hx, isPassed]

/-- A filter whose tests can fail passes what a plain one does exactly if no test fails
and both test alike. -/
theorem filterM_eq_ok_filter_iff {f : α → Except Error Bool} {p : α → Bool} {xs : List α} :
    xs.filterM f = .ok (xs.filter p) ↔ ∀ x ∈ xs, f x = .ok (p x) := by
  unfold List.filterM
  simp only [bind_eq_ok_iff, filterAuxM_eq_ok_iff, pure_eq_ok_iff, List.append_nil]
  constructor
  · rintro ⟨_, ⟨hall, rfl⟩, hsame⟩ x hx
    obtain ⟨b, hb⟩ := hall x hx
    rw [List.reverse_reverse] at hsame
    have hmem : x ∈ xs.filter (fun x => isPassed (f x)) ↔ x ∈ xs.filter p := by rw [hsame]
    rw [List.mem_filter, List.mem_filter, hb] at hmem
    rw [hb]
    exact congrArg _ (Bool.eq_iff_iff.2 (by simpa [hx, isPassed] using hmem))
  · intro hall
    refine ⟨_, ⟨fun x hx => ⟨p x, hall x hx⟩, rfl⟩, ?_⟩
    rw [List.reverse_reverse]
    exact List.filter_congr fun x hx => by rw [hall x hx]; rfl

end Filtering

/-- What is compared with the flag of tree edges is what is stored on the edge. -/
theorem isMarked_eq {tree : Tree} {graph : Graph} {flag : Identifier} {e : EdgeEntry}
    {a : Attributes} {v : Value} (hflag : tree.flagAttribute = flag.value)
    (ha : graph.edgeAttributes e.1.value = .ok (a.insert flag v)) :
    isMarked tree graph e.1.value = flagsMatch v tree.flagOn := by
  unfold isMarked
  rw [ha, hflag, Graph.keyOf_value]
  simp only [bind, Except.bind, Catalog.get?_insert_self]

open Onlookers

variable {host : Host} {g : GraphRef} {t : TreeRef} {calm : World → Prop} {graph graph' : Graph}
  {tree : Tree} {w w' : World} {flag : Identifier}

theorem views_eq (graph : Graph) (g : GraphRef) :
    graph.views g = graph.edges.entries.map fun f => EdgeEntry.view f g := rfl

theorem reads_markedOf (t : TreeRef) : (Session.markedOf t).Reads := by
  refine .bind (.tree t) fun tree => ?_
  split
  · exact .pure _
  · exact .bind (.graph _) fun graph => .ofExcept _

/-- Where each edge has one of the two flags, the ones with that of tree edges are found
if this flag matches itself and the other one does not match it. -/
theorem markedEdges_eq_ok_iff {marked : EdgeView → Bool} (hg : graph.Coherent)
    (hflag : tree.flagAttribute = flag.value) (hpainted : graph.Painted graph' fun f a =>
      a.insert flag (if marked (EdgeEntry.view f g) then tree.flagOn else tree.flagOff)) :
    markedEdges tree g graph' = .ok ((graph.views g).filter marked)
      ↔ ((∃ e ∈ graph.views g, marked e = true) → flagsMatch tree.flagOn tree.flagOn = .ok true)
        ∧ ((∃ e ∈ graph.views g, marked e = false) →
          flagsMatch tree.flagOff tree.flagOn = .ok false) := by
  have hviews : graph'.views g = graph.views g := by
    rw [views_eq, hpainted.edges]
    rfl
  have hread : ∀ e ∈ graph.views g, isMarked tree graph' e.id
      = flagsMatch (if marked e then tree.flagOn else tree.flagOff) tree.flagOn := by
    intro e he
    obtain ⟨f, hf, rfl⟩ := List.mem_map.1 he
    obtain ⟨a, ha⟩ := hg.edgeAttributes_of_mem hf
    exact isMarked_eq hflag (hpainted.attributes f hf a ha)
  unfold markedEdges
  rw [hviews, filterM_eq_ok_filter_iff]
  constructor
  · intro hall
    refine ⟨?_, ?_⟩ <;> rintro ⟨e, he, hmarked⟩ <;> have hsame := hall e he <;>
      rw [hread e he, hmarked] at hsame
    · exact hsame
    · exact hsame
  · rintro ⟨hon, hoff⟩ e he
    rw [hread e he]
    cases hmarked : marked e with
    | true => exact hon ⟨e, he, hmarked⟩
    | false => exact hoff ⟨e, he, hmarked⟩

/-- **The edges that a computation has marked are found again, in order and each once,
exactly if the flag of tree edges matches itself, as far as any edge has been marked, and
the other flag can be compared with it, as far as any has not.**  This is so for every
valid configuration, in whatever order its flags have been assigned, and for every builder
that changes nothing; marks on edges of other graphs do not count, as long as those who
hear of them leave the graph and the tree alone. -/
theorem marks_read_back (h : Onlookers host g t calm) (hw : Scene g t calm graph tree w)
    (hg : graph.Coherent) (hgraph : tree.graph = some g) (hflag : tree.flagAttribute = flag.value)
    (hvalid : tree.Valid Builder.Callable)
    (hbuild : ∀ builder, tree.strategy = .custom → tree.builder = some builder →
      ∀ v, calm v → ((callBuilder host t builder).exec v).2 = v)
    (hapart : ∀ e ∈ markedThrough host t w, e.graph ≠ g → Apart host g t calm e.graph)
    (hdone : (compute host t).exec w = (.ok (), w')) :
    let marked := fun e => (markedThrough host t w).any fun v => v.isSameEdge e
    (Session.markedOf t).exec w' = (.ok ((graph.views g).filter marked), w')
      ↔ ((∃ e ∈ graph.views g, marked e = true) → flagsMatch tree.flagOn tree.flagOn = .ok true)
        ∧ ((∃ e ∈ graph.views g, marked e = false) →
          ∃ same, flagsMatch tree.flagOff tree.flagOn = .ok same) := by
  intro marked
  have hlisted : ∀ v, calm v → v.trees.get t.index = tree → ((treeItems host t).exec v).2 = v := by
    intro v hv htree
    by_cases hcustom : tree.strategy = .custom
    · cases hbuilder : tree.builder with
      | none => exact absurd hbuilder (hvalid.builder hcustom)
      | some builder =>
        have hread := hbuild builder hcustom hbuilder v hv
        simpa only [treeItems, Run.exec_bind, Run.exec_tree, htree, hcustom, hbuilder] using hread
    · obtain ⟨algorithm, hchosen⟩ := exec_treeItems_of_ne_custom host (htree ▸ hcustom)
      rw [hchosen]
      exact reads_chosenItems t algorithm v
  obtain ⟨graph', hw', hpainted⟩ := h.exec_computeTelling hw hg hgraph hflag hlisted hapart
    (exec_computeTelling_of_done hdone)
  have hfound : (Session.markedOf t).exec w' = (markedEdges tree g graph', w') := by
    unfold Session.markedOf
    simp only [Run.exec_bind, Run.exec_tree, hw'.tree_eq, hgraph, Run.exec_graph, hw'.graph_eq,
      Run.exec_ofExcept]
  -- the flags of a valid configuration do not match, but comparing them may fail
  have hother : flagsMatch tree.flagOff tree.flagOn = .ok false
      ↔ ∃ same, flagsMatch tree.flagOff tree.flagOn = .ok same := by
    refine ⟨fun hfalse => ⟨false, hfalse⟩, ?_⟩
    rintro ⟨_ | _, hsame⟩
    · exact hsame
    · exact absurd hsame hvalid.off_on
  rw [hfound, Prod.mk.injEq, and_iff_left rfl, markedEdges_eq_ok_iff hg hflag hpainted, hother]

/-! ## §4. Flags that match themselves, and one that does not. -/

/-- Where all sinks of all graphs are passive, they only look on, … -/
theorem onlookers_quiet (host : Host) (recorders : Heap Recorder) (notes : SinkRef → Notes)
    (g : GraphRef) (t : TreeRef) :
    Onlookers host g t fun v => v.HasGraph g ∧ Quiet host recorders notes v where
  present := fun _ hv => hv.1
  put := fun v graph hv => ⟨(World.hasGraph_put graph).2 hv.1, hv.2.put g graph⟩
  noted := fun _ _ hv => ⟨hv.1, hv.2.recorders_eq, hv.2.passive⟩
  passive := by
    intro v hv s hs sender event v' hv'
    exact ⟨_, hv.2.passive g s hs sender event v' hv'.2.recorders_eq,
      ⟨hv'.1, hv'.2.recorders_eq, hv'.2.passive⟩, rfl, rfl⟩

/-- … and marks on other graphs do not count. -/
theorem apart_quiet {host : Host} {recorders : Heap Recorder} {notes : SinkRef → Notes}
    {g x : GraphRef} (hx : x ≠ g) (t : TreeRef) :
    Apart host g t (fun v => v.HasGraph g ∧ Quiet host recorders notes v) x := by
  intro v c hv
  obtain ⟨receipts, hexec⟩ := hv.2.exec_commit x c
  rw [hexec]
  have hput := hv.2.put x ((v.objectAt x).graph.apply c).1
  exact ⟨⟨(World.hasGraph_put _).2 hv.1, hput.recorders_eq, hput.passive⟩,
    World.objectAt_put_of_ne hx _, rfl⟩

/-- Flags that cannot be ids: a list with NaN in it, and an object that refuses to be
compared.  The edges are listed by a builder. -/
def unhashableFlags : Settings :=
  { Settings.standard with
    flagOn := .list [.nan 1]
    flagOff := .incomparable "x" .type
    strategy := .str "custom" }

/-- A builder that lists an edge of the first graph, and one of the second. -/
def listingAbroad : Builder Step :=
  ⟨[], .answer (.value (.list [.str "out", .edge ⟨1⟩ (.str "home") (.int 2) (.int 1)]))⟩

/-- The tree with these flags and this builder. -/
def treeAbroad : Tree where
  graph := some ⟨0⟩
  flagAttribute := .str "SpanningTree.flag"
  flagOn := .list [.nan 1]
  flagOff := .incomparable "x" .type
  weightName := .str "weight"
  mode := .distance
  strategy := .custom
  builder := some listingAbroad

theorem make_unhashableFlags :
    SpanningTree.make (some ⟨0⟩) unhashableFlags (.callable listingAbroad) = .ok treeAbroad := rfl

/-- Two triangles, and the tree on the first one. -/
def twoTriangles : World :=
  { triangleWorld .custom .distance with
    graphs := ⟨[⟨"first", ⟨.str "first", [.silent 0]⟩, triangle⟩,
      ⟨"second", ⟨.str "second", [.silent 0]⟩, triangle⟩]⟩
    trees := ⟨[treeAbroad]⟩ }

theorem quiet_twoTriangles :
    Quiet (Session.hostOfDepth 1) .empty (fun _ _ _ => []) twoTriangles := by
  refine ⟨rfl, fun x s hs => ?_⟩
  obtain ⟨_ | _ | i⟩ := x
  · rw [List.mem_singleton.1 hs]
    exact passive_silent 0 .empty 0
  · rw [List.mem_singleton.1 hs]
    exact passive_silent 0 .empty 0
  · exact absurd hs List.not_mem_nil

theorem scene_twoTriangles :
    Scene ⟨0⟩ ⟨0⟩
      (fun v => v.HasGraph ⟨0⟩ ∧ Quiet (Session.hostOfDepth 1) .empty (fun _ _ _ => []) v)
      triangle treeAbroad twoTriangles :=
  ⟨⟨Nat.two_pos, quiet_twoTriangles⟩, rfl, rfl⟩

/-- The world after a computation. -/
def computed (w : World) : World := ((compute (Session.hostOfDepth 1) ⟨0⟩).exec w).2

theorem exec_compute_of_isOk {w : World}
    (hdone : ((compute (Session.hostOfDepth 1) ⟨0⟩).exec w).1.isOk = true) :
    (compute (Session.hostOfDepth 1) ⟨0⟩).exec w = (.ok (), computed w) := by
  unfold computed
  revert hdone
  rcases (compute (Session.hostOfDepth 1) ⟨0⟩).exec w with ⟨_ | _, w'⟩
  · exact fun hdone => by cases hdone
  · exact fun _ => rfl

theorem marks_read_back_abroad :
    (markedThrough (Session.hostOfDepth 1) ⟨0⟩ twoTriangles).length = 2
    ∧ (Session.markedOf ⟨0⟩).exec (computed twoTriangles)
      = (.ok ((triangle.views ⟨0⟩).filter fun e =>
          (markedThrough (Session.hostOfDepth 1) ⟨0⟩ twoTriangles).any fun v => v.isSameEdge e),
        computed twoTriangles) := by
  have hvalid : treeAbroad.Valid Builder.Callable :=
    SpanningTree.valid_of_make (fun b hb => by cases hb; rintro v ⟨⟩) make_unhashableFlags
  refine ⟨by decide +kernel, (marks_read_back (onlookers_quiet _ _ _ ⟨0⟩ ⟨0⟩)
    scene_twoTriangles reachable_triangle.coherent rfl (flag_listingTree []) hvalid ?_ (fun e _ hne => apart_quiet hne ⟨0⟩)
    (exec_compute_of_isOk (by decide +kernel))).2 ⟨fun _ => rfl, fun _ => ⟨false, rfl⟩⟩⟩
  rintro builder - ⟨⟩ v -
  rfl

/-- NaN for the flag of tree edges. -/
def nanFlag : Settings := { Settings.standard with flagOn := .nan 1 }

/-- The tree with this flag. -/
def nanTree : Tree := { plainTree .kruskal .distance with flagOn := .nan 1 }

/-- Two nodes joined by an edge, and the tree. -/
def nanWorld : World :=
  { triangleWorld .kruskal .distance with
    graphs := ⟨[⟨"g", ⟨.str "G", []⟩, (Graph.empty false).applied
      [.addNode (.int 1), .addNode (.int 2), .addEdge (.str "e") (.int 1) (.int 2)]⟩]⟩
    trees := ⟨[nanTree]⟩ }

/-- **With NaN for a flag, which is accepted, nothing that is marked is found.**  The edge
is marked, yet there are no marked edges. -/
theorem marks_not_read_back_nan :
    SpanningTree.make (some ⟨0⟩) nanFlag .nothing = .ok nanTree
    ∧ (compute (Session.hostOfDepth 1) ⟨0⟩).exec nanWorld = (.ok (), computed nanWorld)
    ∧ (((nanWorld.objectAt ⟨0⟩).graph.views ⟨0⟩).filter fun e =>
        (markedThrough (Session.hostOfDepth 1) ⟨0⟩ nanWorld).any fun v => v.isSameEdge e).length = 1
    ∧ (Session.markedOf ⟨0⟩).exec (computed nanWorld) = (.ok [], computed nanWorld) := by
  refine ⟨rfl, exec_compute_of_isOk (by decide +kernel), by decide +kernel, ?_⟩
  have hnone : (((Session.markedOf ⟨0⟩).exec (computed nanWorld)).1.map (·.isEmpty)).toOption
      = some true := by decide +kernel
  have hread := reads_markedOf ⟨0⟩ (computed nanWorld)
  rcases hfound : (Session.markedOf ⟨0⟩).exec (computed nanWorld) with ⟨_ | found, w⟩
  · rw [hfound] at hnone
    cases hnone
  · rw [hfound] at hnone hread
    cases hread
    obtain rfl : found = [] := List.isEmpty_iff.1 (Option.some.inj hnone)
    rfl

end EvolvingGraph
