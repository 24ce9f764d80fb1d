/-
  EvolvingGraph.Proofs.Marking.Mirroring
  ──────────────────────────────────────
  **A TREE THAT WORKS ON A GRAPH WHICH ANOTHER ONE COPIES.**

  All that the operations of a spanning tree do to its graph are changes of
  single attributes; between them they read.  Small rules, one for each way of
  putting operations together, show that the copy stays in lockstep throughout.
  The edges come from a builder that the tree was given.  Of such a builder it
  has to be known that it changes the source by calls only and the copy not at
  all, and that what it lists are edges of the source.

  Main statements:
    * `Mirrors.bind`, `Mirrors.forM`, … — the rules;
    * `Course.followed` — calls to the source, with other things in between;
    * `mirrors_computeTree` — computing a tree keeps a copy in lockstep.
-/
import EvolvingGraph.Proofs.Delivery.Mirror
import EvolvingGraph.Proofs.Marking.Lookups

namespace EvolvingGraph.Mirror

/-! ## §1. Rules. -/

/-- From a world in lockstep in which something is known of the trees, an
operation leads to one in lockstep; if it does not fail, something is known of
its result and of the trees. -/
def Mirrors {α : Type} (m : Mirror) (x : Wiring) (known : Heap Tree → Prop) (operation : Run α)
    (result : α → Heap Tree → Prop) : Prop :=
  ∀ w, m.Lockstep x w → known w.trees → m.Followed x w (operation.exec w).2
    ∧ ∀ a, (operation.exec w).1 = .ok a → result a (operation.exec w).2.trees

variable {α β : Type} {m : Mirror} {x : Wiring} {known : Heap Tree → Prop}

namespace Mirrors

variable {operation : Run α} {result result' : α → Heap Tree → Prop}

/-- An operation that only reads. -/
theorem of_reads (hreads : operation.Reads)
    (hresult : ∀ w a, known w.trees → (operation.exec w).1 = .ok a → result a w.trees) :
    m.Mirrors x known operation result := by
  intro w h hknown
  rw [hreads w]
  exact ⟨.refl h, fun a ha => hresult w a hknown ha⟩

theorem pure {a : α} (hresult : ∀ trees, known trees → result a trees) :
    m.Mirrors x known (pure a) result :=
  of_reads (fun _ => rfl) fun w _ hknown ha => Except.ok.inj ha ▸ hresult w.trees hknown

theorem throw (e : Error) : m.Mirrors x known (throw e) result :=
  of_reads (fun _ => rfl) fun _ _ _ ha => absurd ha (by simp)

theorem weaken (h : m.Mirrors x known operation result)
    (himp : ∀ a trees, result a trees → result' a trees) :
    m.Mirrors x known operation result' := by
  intro w hw hknown
  obtain ⟨hfollowed, hresult⟩ := h w hw hknown
  exact ⟨hfollowed, fun a ha => himp a _ (hresult a ha)⟩

/-- One operation after the other. -/
theorem bind {f : α → Run β} {result' : β → Heap Tree → Prop}
    (h : m.Mirrors x known operation result)
    (hf : ∀ a, m.Mirrors x (result a) (f a) result') :
    m.Mirrors x known (operation >>= f) result' := by
  intro w hw hknown
  obtain ⟨hfollowed, hresult⟩ := h w hw hknown
  rw [Run.exec_bind]
  rcases hexec : operation.exec w with ⟨e | a, w'⟩
  · rw [hexec] at hfollowed
    exact ⟨hfollowed, fun _ hb => absurd hb (by simp)⟩
  · rw [hexec] at hfollowed hresult
    obtain ⟨hfollowed', hresult'⟩ := hf a w' hfollowed.lockstep (hresult a rfl)
    exact ⟨hfollowed.trans hfollowed', hresult'⟩

/-- A loop that keeps what is known. -/
theorem forM {f : α → Run Unit} {xs : List α}
    (h : ∀ a ∈ xs, m.Mirrors x known (f a) fun _ => known) :
    m.Mirrors x known (xs.forM f) fun _ => known := by
  induction xs with
  | nil => exact .pure fun _ hknown => hknown
  | cons a xs ih =>
    exact (h a List.mem_cons_self).bind fun _ => ih fun b hb => h b (List.mem_cons_of_mem a hb)

theorem ofExcept {r : Except Error α} (hresult : ∀ a trees, r = .ok a → known trees →
    result a trees) : m.Mirrors x known (Run.ofExcept r) result := by
  refine of_reads (.ofExcept r) fun w a hknown ha => ?_
  rw [Run.exec_ofExcept] at ha
  exact hresult a w.trees ha hknown

theorem graph (g : GraphRef) : m.Mirrors x known (World.graph g) fun _ => known :=
  of_reads (fun _ => rfl) fun _ _ hknown _ => hknown

/-- What is known whatever the trees are can be used beforehand. -/
theorem assuming {p : Prop} (h : p → m.Mirrors x known operation result) :
    m.Mirrors x (fun trees => known trees ∧ p) operation result :=
  fun w hw hknown => h hknown.2 w hw hknown.1

/-- Calls to the source leave the trees alone. -/
theorem call (call : GraphCall) :
    m.Mirrors x known (call.run m.host m.source) fun _ => known := by
  intro w hw hknown
  obtain ⟨hfollowed, htrees⟩ := hw.followed_call call
  rw [← htrees] at hknown
  exact ⟨hfollowed, fun _ _ => hknown⟩

end Mirrors

/-! ## §2. What else happens. -/

/-- Nothing about the two graphs, their sinks and what was received is different. -/
structure Aside (m : Mirror) (w w' : World) : Prop where
  source_present : w.HasGraph m.source → w'.HasGraph m.source
  copy_present : w.HasGraph m.copy → w'.HasGraph m.copy
  source : w'.objectAt m.source = w.objectAt m.source
  copy : w'.objectAt m.copy = w.objectAt m.copy
  recorders : w'.recorders = w.recorders
  received : w'.received = w.received

theorem Aside.followed {w w' : World} (h : m.Aside w w') (hw : m.Lockstep x w) :
    m.Followed x w w' := by
  refine ⟨⟨⟨h.source_present hw.source_present, h.copy_present hw.copy_present, ?_, ?_, ?_, ?_⟩,
    ?_, ?_, ?_⟩, [], ?_⟩
  · rw [h.source]
    exact hw.source_emitter
  · rw [h.copy]
    exact hw.copy_emitter
  · rw [h.recorders]
    exact hw.beside
  · rw [h.recorders]
    exact hw.behind
  · rw [h.source]
    exact hw.coherent
  · rw [h.source, h.copy]
    exact hw.directed
  · rw [h.source, h.copy]
    exact hw.same
  · rw [h.received, List.flatMap_nil, List.append_nil]

theorem Mirrors.note (entry : LogEntry) :
    m.Mirrors x known (World.note entry) fun _ => known :=
  fun _ hw hknown =>
    ⟨Aside.followed ⟨fun h => h, fun h => h, rfl, rfl, rfl, rfl⟩ hw, fun _ _ => hknown⟩

/-- Calls to the source, with other things in between that have nothing to do
with the two graphs. -/
inductive Course (m : Mirror) : World → World → Prop where
  | done (w : World) : Course m w w
  | called {w w' : World} (before : Course m w w') (call : GraphCall) :
      Course m w ((call.run m.host m.source).exec w').2
  | aside {w w' w'' : World} (before : Course m w w') (other : m.Aside w' w'') : Course m w w''

theorem Course.followed {w w' : World} (h : m.Course w w') (hw : m.Lockstep x w) :
    m.Followed x w w' := by
  induction h with
  | done => exact .refl hw
  | called before call ih => exact ih.trans (ih.lockstep.followed_call call).1
  | aside before other ih => exact ih.trans (other.followed ih.lockstep)

/-! ## §3. Single edges. -/

/-- A tree works on the source, if it works on any graph. -/
def TreeOn (m : Mirror) (t : TreeRef) (trees : Heap Tree) : Prop :=
  ∀ g, (trees.get t.index).graph = some g → g = m.source

/-- What an item turns out to be is an edge of the source. -/
def Resolves (m : Mirror) (t : TreeRef) (item : TreeItem) : Prop :=
  ∀ w, m.TreeOn t w.trees → ∀ e, ((resolveItem t item).exec w).1 = .ok (some e) →
    e.graph = m.source

variable {t : TreeRef}

theorem Mirrors.tree (t : TreeRef) : m.Mirrors x known (World.tree t) fun _ => known :=
  .of_reads (fun _ => rfl) fun _ _ hknown _ => hknown

/-- The graph of a tree, if there is one, is the source. -/
theorem Mirrors.treeOn (h : ∀ trees, known trees → m.TreeOn t trees) :
    m.Mirrors x known (World.tree t) fun tree trees =>
      known trees ∧ ∀ g, tree.graph = some g → g = m.source :=
  .of_reads (fun _ => rfl) fun w _ hknown ha => ⟨hknown, Except.ok.inj ha ▸ h w.trees hknown⟩

theorem mirrors_treeGraph (h : ∀ trees, known trees → m.TreeOn t trees) :
    m.Mirrors x known (treeGraph t) fun g trees => known trees ∧ g = m.source := by
  refine (Mirrors.treeOn h).bind fun tree => .assuming fun hgraph => ?_
  split
  · next g hg => exact .pure fun _ hknown => ⟨hknown, hgraph g hg⟩
  · exact .throw _

theorem mirrors_view (graph : Graph) (g : GraphRef) (id : Value) :
    m.Mirrors x known (Run.ofExcept (graph.view g id)) fun e trees =>
      known trees ∧ e.graph = g :=
  .ofExcept fun _ _ he hknown => ⟨hknown, graph_eq_of_view he⟩

/-- The edge that a value stands for is one of the source, unless the value is
a view of an edge elsewhere. -/
theorem mirrors_resolveEdge (h : ∀ trees, known trees → m.TreeOn t trees) {v : Value}
    (hview : ∀ g id s d, v = .edge g id s d → g = m.source) :
    m.Mirrors x known (resolveEdge t v) fun e trees => known trees ∧ e.graph = m.source := by
  unfold resolveEdge
  split
  · exact .pure fun _ hknown => ⟨hknown, hview _ _ _ _ rfl⟩
  · refine (Mirrors.treeOn h).bind fun tree => .assuming fun hgraph => ?_
    split
    · next g hg =>
      rw [← hgraph g hg]
      exact (Mirrors.graph g).bind fun graph => mirrors_view graph g _
    · exact .throw _

/-- Writing an edge of the source is a call to it. -/
theorem mirrors_setOnView {e : EdgeView} (he : e.graph = m.source) (name value : Value) :
    m.Mirrors x known (setOnView m.host e name value) fun _ => known := by
  have hcall : setOnView m.host e name value
      = (GraphCall.write e.id e.source e.target name value).run m.host m.source := by
    rw [← he]
    rfl
  rw [hcall]
  exact Mirrors.call _

theorem mirrors_markOn {e : EdgeView} (he : e.graph = m.source) :
    m.Mirrors x known (markOn m.host t e) fun _ => known :=
  (Mirrors.tree t).bind fun _ => mirrors_setOnView he _ _

theorem mirrors_markOff {e : EdgeView} (he : e.graph = m.source) :
    m.Mirrors x known (markOff m.host t e) fun _ => known :=
  (Mirrors.tree t).bind fun _ => mirrors_setOnView he _ _

/-! ## §4. All edges. -/

theorem mirrors_forEachEdge {act : EdgeView → Run Unit}
    (hact : ∀ e, e.graph = m.source → m.Mirrors x known (act e) fun _ => known) :
    m.Mirrors x known (forEachEdge m.source act) fun _ => known := by
  refine (Mirrors.graph _).bind fun _ => .forM fun id _ => (Mirrors.graph _).bind fun graph => ?_
  split
  · exact (mirrors_view graph _ _).bind fun e => .assuming (hact e)
  · exact .pure fun _ hknown => hknown

/-- Marking every edge as one outside the tree. -/
theorem mirrors_resetMarks (h : ∀ trees, known trees → m.TreeOn t trees) :
    m.Mirrors x known (resetMarks m.host t) fun _ => known := by
  refine (Mirrors.treeOn h).bind fun tree => .assuming fun hgraph => ?_
  split
  · next g hg =>
    rw [hgraph g hg]
    exact mirrors_forEachEdge fun e he => mirrors_markOff he
  · exact .pure fun _ hknown => hknown

/-- Removing an attribute from an edge of the source is a call to it. -/
theorem Mirrors.removeAttribute (on : ElementKind) (id name : Value) :
    m.Mirrors x known (commit m.host m.source (.removeAttribute on id name)) fun _ => known := by
  intro w hw hknown
  obtain ⟨hfollowed, htrees, _⟩ :=
    hw.followed_commit (c := .removeAttribute on id name) (Graph.orderly_of_ne (by simp))
  rw [← htrees] at hknown
  exact ⟨hfollowed, fun _ _ => hknown⟩

/-- Removing the marks from every edge. -/
theorem mirrors_clearMarks (h : ∀ trees, known trees → m.TreeOn t trees) :
    m.Mirrors x known (clearMarks m.host t) fun _ => known := by
  refine (Mirrors.treeOn h).bind fun tree => .assuming fun hgraph => ?_
  split
  · next g hg =>
    rw [hgraph g hg]
    refine mirrors_forEachEdge fun e _ => (mirrors_treeGraph h).bind fun current =>
      .assuming fun hcurrent => (Mirrors.tree t).bind fun tree => ?_
    rw [hcurrent]
    exact .removeAttribute _ _ _
  · exact .pure fun _ hknown => hknown

/-! ## §5. Computing a tree. -/

/-- An id is looked up in the graph of the tree. -/
theorem resolves_named (t : TreeRef) (id : Value) : m.Resolves t (.named id) := by
  intro w hw e he
  exact hw e.graph (graph_of_named he)

theorem mirrors_markItems {items : List TreeItem} (hitems : ∀ item ∈ items, m.Resolves t item) :
    m.Mirrors x (m.TreeOn t) (markItems m.host t items) fun _ => m.TreeOn t := by
  induction items with
  | nil => exact .pure fun _ hknown => hknown
  | cons item rest ih =>
    have hrest := ih fun item' hitem' => hitems item' (List.mem_cons_of_mem item hitem')
    -- an item is resolved only now, when the items before it have been marked
    have hresolve : m.Mirrors x (m.TreeOn t) (resolveItem t item) fun found trees =>
        m.TreeOn t trees ∧ ∀ e, found = some e → e.graph = m.source :=
      .of_reads (reads_resolveItem t item) fun w found hknown hfound =>
        ⟨hknown, fun e he => hitems item List.mem_cons_self w hknown e (he ▸ hfound)⟩
    refine hresolve.bind fun found => .assuming fun hfound => ?_
    split
    · next e =>
      refine (mirrors_markOn (hfound e rfl)).bind fun _ => hrest.bind fun _ => ?_
      exact .pure fun _ hknown => hknown
    · exact hrest

/-- What a builder does while it lists edges is a course of calls to the
source, and it lists edges of the source. -/
def BuildsAlong (m : Mirror) (x : Wiring) (t : TreeRef) (trees : Heap Tree)
    (build : Run (List TreeItem)) : Prop :=
  ∀ w, m.Lockstep x w → w.trees = trees → m.Course w (build.exec w).2
    ∧ ∀ items, (build.exec w).1 = .ok items → m.TreeOn t (build.exec w).2.trees
      ∧ ∀ item ∈ items, m.Resolves t item

/-- The algorithms read, and they list ids. -/
theorem buildsAlong_of_ne_custom {trees : Heap Tree} (htrees : m.TreeOn t trees)
    (hstrategy : (trees.get t.index).strategy ≠ .custom) :
    m.BuildsAlong x t trees (treeItems m.host t) := by
  intro w hw hknown
  rw [← hknown] at hstrategy
  obtain ⟨algorithm, hitems⟩ := exec_treeItems_of_ne_custom m.host hstrategy
  rw [hitems, reads_chosenItems t algorithm w]
  refine ⟨.done w, fun items h => ⟨hknown ▸ htrees, fun item hitem => ?_⟩⟩
  obtain ⟨ids, rfl⟩ := exec_chosenItems_ok h
  obtain ⟨id, _, rfl⟩ := List.mem_map.1 hitem
  exact resolves_named t id

/-- **Computing a tree keeps a copy in lockstep.** -/
theorem mirrors_computeTree {trees : Heap Tree} (htrees : m.TreeOn t trees)
    {build : Run (List TreeItem)} (hbuild : m.BuildsAlong x t trees build) :
    m.Mirrors x (· = trees) (computeTree m.host t build) fun _ _ => True := by
  have hon : ∀ trees', trees' = trees → m.TreeOn t trees' := by
    rintro _ rfl
    exact htrees
  have hlisted : m.Mirrors x (· = trees) build fun items trees' =>
      m.TreeOn t trees' ∧ ∀ item ∈ items, m.Resolves t item := by
    intro w hw hknown
    obtain ⟨hcourse, hresult⟩ := hbuild w hw hknown
    exact ⟨hcourse.followed hw, hresult⟩
  -- until the builder is asked the trees are the given ones, afterwards only the graph is known
  refine (Mirrors.treeOn hon).bind fun tree => .assuming fun hgraph => ?_
  split
  · exact (Mirrors.note _).weaken fun _ _ _ => trivial
  · next g hg =>
    refine (Mirrors.of_reads (fun _ => rfl) fun _ _ hknown _ => hknown).bind fun object => ?_
    refine (Mirrors.note _).bind fun _ => (mirrors_resetMarks hon).bind fun _ => ?_
    refine hlisted.bind fun items => .assuming fun hitems => ?_
    refine (mirrors_markItems hitems).bind fun marked => ?_
    refine (mirrors_treeGraph fun _ h => h).bind fun current => ?_
    refine (Mirrors.graph _).bind fun graph => ?_
    exact (Mirrors.note _).weaken fun _ _ _ => trivial

end EvolvingGraph.Mirror
