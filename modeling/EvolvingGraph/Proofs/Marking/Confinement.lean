/-
  EvolvingGraph.Proofs.Marking.Confinement
  ────────────────────────────────────────
  **WHICH GRAPHS THE COMPUTING OF A TREE CAN TOUCH.**

  A tree works on one graph, and marks its edges by changes that its sinks hear of.
  Ids are looked up in that graph only.  But an edge view that a builder lists is
  marked where it belongs, whatever graph that is: so a tree can write into a graph
  that it does not work on, and that graph then tells its own sinks.

  That is the only way out.  If all that a builder lists are ids, and views of edges
  of graphs that are reached anyway, then every other graph stays as it is and emits
  nothing, whether the tree is computed to the end or not.

  Main statements:
    * `compute_spares_outsider` — what is not reached is left alone;
    * `compute_marks_listed_view` — a view of an edge elsewhere is marked elsewhere.
-/
import EvolvingGraph.Proofs.Delivery.Sparing
import EvolvingGraph.Proofs.Marking.Lookups

namespace EvolvingGraph

open Run

variable {e : Enclosure} {host : Host} {t : TreeRef}

/-! ## §1. Looking things up. -/

section Lookups

instance (t : TreeRef) : Spares e (treeGraph t) := by
  unfold treeGraph
  refine .bind inferInstance fun tree => ?_
  split <;> infer_instance

instance (g : GraphRef) (id : Value) : Spares e (lookUp g id) := by
  unfold lookUp
  infer_instance

instance (name : String) : Spares e (referenced name) := by
  unfold referenced
  refine .bind inferInstance fun object => ?_
  split <;> infer_instance

mutual

theorem spares_evaluate : ∀ term : Term, Spares e (evaluate term)
  | .value v => by
    unfold evaluate
    infer_instance
  | .nan => by
    unfold evaluate
    infer_instance
  | .reference name => by
    unfold evaluate
    infer_instance
  | .tuple items => by
    unfold evaluate
    have := spares_evaluateAll items
    infer_instance
  | .list items => by
    unfold evaluate
    have := spares_evaluateAll items
    infer_instance

theorem spares_evaluateAll : ∀ terms : List Term, Spares e (evaluateAll terms)
  | [] => by
    unfold evaluateAll
    infer_instance
  | term :: rest => by
    unfold evaluateAll
    have := spares_evaluate term
    have := spares_evaluateAll rest
    infer_instance

end

instance (term : Term) : Spares e (evaluate term) := spares_evaluate term

instance (terms : List Term) : Spares e (evaluateAll terms) := spares_evaluateAll terms

instance (v : Value) : Spares e (itemsOfValue v) := by
  unfold itemsOfValue
  split <;> infer_instance

instance (t : TreeRef) (algorithm : Algorithm) : Spares e (chosenItems t algorithm) := by
  unfold chosenItems
  infer_instance

instance (t : TreeRef) (kind : BuilderKind) : Spares e (answerOf t kind) := by
  unfold answerOf
  split <;> infer_instance

instance (t : TreeRef) (item : TreeItem) : Spares e (resolveItem t item) := by
  unfold resolveItem
  split
  · infer_instance
  · infer_instance
  · refine .bind inferInstance fun graph => ?_
    split
    · refine .bind inferInstance fun v => ?_
      split <;> infer_instance
    · infer_instance
  · refine .bind inferInstance fun graph => .bind inferInstance fun attributes => ?_
    split <;> infer_instance

end Lookups

/-! ## §2. What a builder lists. -/

namespace Enclosure

/-- If a tree works on a graph, it is one inside. -/
def WorksInside (e : Enclosure) (t : TreeRef) : Prop :=
  ∀ w g, e.calm w → (w.trees.get t.index).graph = some g → e.inside (.graph g)

/-- If an item stands for an edge, it is one of a graph inside. -/
def Admits (e : Enclosure) (t : TreeRef) (item : TreeItem) : Prop :=
  ∀ w v, e.calm w → ((resolveItem t item).exec w).1 = .ok (some v) → e.inside (.graph v.graph)

theorem admits_named (ht : e.WorksInside t) (id : Value) : e.Admits t (.named id) :=
  fun w v hw h => ht w v.graph hw (graph_of_named h)

theorem admits_view {v : EdgeView} (hv : e.inside (.graph v.graph)) (t : TreeRef) :
    e.Admits t (.view v) := by
  intro w found _ h
  cases h
  exact hv

/-- A builder leaves the outsider alone while it plays its steps, and then lists nothing
but ids and edges of graphs inside. -/
structure AdmitsBuilder (e : Enclosure) (host : Host) (t : TreeRef) (builder : Builder Step) :
    Prop where
  steps : Spares e (host.play none builder.steps)
  items : ∀ w items, e.calm w → ((answerOf t builder.kind).exec w).1 = .ok items →
    ∀ item ∈ items, e.Admits t item

/-- Whenever a tree asks a builder, it is one of those. -/
def AdmitsBuilders (e : Enclosure) (host : Host) (t : TreeRef) : Prop :=
  ∀ w builder, e.calm w → (w.trees.get t.index).strategy = .custom →
    (w.trees.get t.index).builder = some builder → e.AdmitsBuilder host t builder

end Enclosure

theorem spares_treeItems (hbuilder : e.AdmitsBuilders host t) : Spares e (treeItems host t) := by
  unfold treeItems
  refine .bind_of_ok inferInstance fun w tree w' hw htree => ?_
  cases htree
  split
  · infer_instance
  · infer_instance
  · next builder hstrategy hasked =>
    have := (hbuilder w builder hw hstrategy hasked).steps
    unfold callBuilder
    infer_instance
  · infer_instance

/-- What is listed for a tree are ids and edges of graphs inside. -/
theorem admits_treeItems (ht : e.WorksInside t) (hbuilder : e.AdmitsBuilders host t) {w : World}
    (hw : e.calm w) {items : List TreeItem} (h : ((treeItems host t).exec w).1 = .ok items) :
    ∀ item ∈ items, e.Admits t item := by
  by_cases hstrategy : (w.trees.get t.index).strategy = .custom
  · cases hasked : (w.trees.get t.index).builder with
    | none => simp [treeItems, hstrategy, hasked] at h
    | some builder =>
      obtain ⟨hsteps, hitems⟩ := hbuilder w builder hw hstrategy hasked
      have hcalm := hsteps.calm w hw
      simp only [treeItems, callBuilder, exec_bind, exec_tree, hstrategy, hasked] at h
      rcases hplay : (host.play none builder.steps).exec w with ⟨_ | _, w'⟩
      · rw [hplay] at h
        cases h
      · rw [hplay] at h hcalm
        exact hitems w' items hcalm h
  · obtain ⟨algorithm, hchosen⟩ := exec_treeItems_of_ne_custom host hstrategy
    rw [hchosen] at h
    obtain ⟨ids, rfl⟩ := exec_chosenItems_ok h
    intro item hitem
    obtain ⟨id, _, rfl⟩ := List.mem_map.1 hitem
    exact e.admits_named ht id

/-! ## §3. Marking. -/

section Marking

variable (hsealed : e.Sealed host)
include hsealed

theorem spares_setOnView {v : EdgeView} (hv : e.inside (.graph v.graph)) (name value : Value) :
    Spares e (setOnView host v name value) := hsealed.spares_commit hv _

theorem spares_markOn {v : EdgeView} (hv : e.inside (.graph v.graph)) :
    Spares e (markOn host t v) :=
  .bind inferInstance fun tree => spares_setOnView hsealed hv tree.flagAttribute tree.flagOn

theorem spares_markOff {v : EdgeView} (hv : e.inside (.graph v.graph)) :
    Spares e (markOff host t v) :=
  .bind inferInstance fun tree => spares_setOnView hsealed hv tree.flagAttribute tree.flagOff

/-- The edges that are gone through are edges of the graph. -/
theorem spares_resetMarks (ht : e.WorksInside t) : Spares e (resetMarks host t) := by
  unfold resetMarks
  refine .bind_of_ok inferInstance fun w tree w' hw htree => ?_
  cases htree
  split
  · next g hgraph =>
    unfold forEachEdge
    refine .bind inferInstance fun graph => .forM_of_mem fun id _ => ?_
    refine .bind inferInstance fun now => ?_
    split
    · refine .bind_of_ok inferInstance fun v view _ _ hview => spares_markOff hsealed ?_
      rw [exec_ofExcept] at hview
      rw [graph_eq_of_view (Prod.ext_iff.1 hview).1]
      exact ht w g hw hgraph
    · infer_instance
  · infer_instance

theorem spares_markItems {items : List TreeItem} (hitems : ∀ item ∈ items, e.Admits t item) :
    Spares e (markItems host t items) := by
  induction items with
  | nil =>
    unfold markItems
    infer_instance
  | cons item rest ih =>
    have hrest := ih fun item' hitem' => hitems item' (List.mem_cons_of_mem item hitem')
    unfold markItems
    refine .bind_of_ok inferInstance fun w found w' hw hfound => ?_
    split
    · next v =>
      have hv := hitems item List.mem_cons_self w v hw (Prod.ext_iff.1 hfound).1
      exact (spares_markOn hsealed hv).bind fun _ => .bind hrest fun _ => inferInstance
    · exact hrest

theorem spares_compute (ht : e.WorksInside t) (hbuilder : e.AdmitsBuilders host t) :
    Spares e (compute host t) := by
  unfold compute computeTree
  refine .bind_of_ok inferInstance fun w tree w' hw htree => ?_
  cases htree
  split
  · infer_instance
  · next g hgraph =>
    refine (Spares.graphObject (ht w g hw hgraph)).bind fun object => ?_
    refine .bind inferInstance fun _ => ?_
    refine (spares_resetMarks hsealed ht).bind fun _ => ?_
    refine (spares_treeItems hbuilder).bind_of_ok fun w items w' hw hlisted => ?_
    have hitems := admits_treeItems ht hbuilder hw (Prod.ext_iff.1 hlisted).1
    exact (spares_markItems hsealed hitems).bind fun _ => inferInstance

end Marking

/-! ## §4. What a tree cannot touch, and what it can. -/

open Session

/-- **Computing a tree leaves every graph alone that is not reached, if the builder lists
ids and edges of graphs that are.**  The graph holds what it held, and whatever sinks
were attached to it, the same would have happened: it has told them nothing. -/
theorem compute_spares_outsider {depth : Nat} {w : World} (htame : e.Tame)
    (ht : e.WorksInside t) (hbuilder : e.AdmitsBuilders (hostOfDepth depth) t) (hw : e.calm w) :
    let after := (compute (hostOfDepth depth) t).exec w
    after.2.objectAt e.outsider = w.objectAt e.outsider
      ∧ ∀ sinks, (compute (hostOfDepth depth) t).exec (w.reattached e.outsider sinks)
        = (after.1, after.2.reattached e.outsider sinks) := by
  have hspares := spares_compute (htame.sealed depth) ht hbuilder
  exact ⟨hspares.object w hw, fun sinks => hspares.unheard w sinks hw⟩

namespace Confinement

/-- Two nodes, and an edge between them. -/
def joined : Graph :=
  (Graph.empty false).applied
    [.addNode (.int 1), .addNode (.int 2), .addEdge (.str "x") (.int 1) (.int 2)]

/-- A tree on a graph, with a builder that lists something. -/
def tree (g : GraphRef) (listed : List Value) : Tree :=
  { (default : Tree) with
    graph := some g
    strategy := .custom
    builder := some ⟨[], .answer (.value (.list listed))⟩ }

/-- Three graphs, of which the third is a sink of the second, and recorders attached to
the first and to the third. -/
def stage (tree : Tree) : World :=
  { World.initial with
    graphs := ⟨[⟨"first", ⟨.str "first", [.recorder 0]⟩, joined⟩,
      ⟨"second", ⟨.str "second", [.graph ⟨2⟩]⟩, joined⟩,
      ⟨"third", ⟨.str "third", [.recorder 1]⟩, joined⟩]⟩
    recorders := ⟨[⟨"r", []⟩, ⟨"s", []⟩]⟩
    trees := ⟨[tree]⟩ }

/-- The view of the edge of a graph. -/
def view (g : GraphRef) : EdgeView := ⟨g, .str "x", .int 1, .int 2⟩

/-- An id, and a view of the edge of the third graph. -/
def listed : List Value := [.str "x", (view ⟨2⟩).toValue]

/-- The tree has been computed on the first graph, and is now to work on the second. -/
def switched : World :=
  { ((compute (hostOfDepth 3) ⟨0⟩).exec (stage (tree ⟨0⟩ listed))).2 with
    trees := ⟨[tree ⟨1⟩ listed]⟩ }

/-- Whether the edge of a graph is marked as a tree edge. -/
def isFlagged (w : World) (g : GraphRef) : Bool :=
  match (w.objectAt g).graph.edgeAttributes (.str "x") with
  | .ok attributes =>
    match attributes.get? (.text "SpanningTree.flag") with
    | some (.bool flag) => flag
    | _ => false
  | .error _ => false

/-- The second graph tells the third, and this one its recorder; no others are told. -/
theorem reached_from_second {w : World} (hsecond : (w.objectAt ⟨1⟩).emitter.sinks = [.graph ⟨2⟩])
    (hthird : (w.objectAt ⟨2⟩).emitter.sinks = [.recorder 1]) {s : SinkRef}
    (h : w.Reaches (· = ⟨1⟩) s) : s = .graph ⟨1⟩ ∨ s = .graph ⟨2⟩ ∨ s = .recorder 1 := by
  induction h with
  | source h => exact .inl (congrArg SinkRef.graph h)
  | sink before hs ih =>
    obtain h | h | h := ih
    · cases h
      rw [hsecond] at hs
      exact .inr (.inl (List.mem_singleton.1 hs))
    · cases h
      rw [hthird] at hs
      exact .inr (.inr (List.mem_singleton.1 hs))
    · cases h

theorem not_reaches_first {w : World} (hsecond : (w.objectAt ⟨1⟩).emitter.sinks = [.graph ⟨2⟩])
    (hthird : (w.objectAt ⟨2⟩).emitter.sinks = [.recorder 1]) :
    ¬ w.Reaches (· = ⟨1⟩) (.graph ⟨0⟩) := by
  intro h
  obtain h | h | h := reached_from_second hsecond hthird h <;> cases h

theorem sinks_second_switched : (switched.objectAt ⟨1⟩).emitter.sinks = [.graph ⟨2⟩] := by
  decide +kernel

theorem sinks_third_switched : (switched.objectAt ⟨2⟩).emitter.sinks = [.recorder 1] := by
  decide +kernel

/-- What is reached from the second graph, and the first one, which is not. -/
def enclosure : Enclosure :=
  .ofWorld switched (· = ⟨1⟩) ⟨0⟩ (not_reaches_first sinks_second_switched sinks_third_switched)

theorem calm_switched : enclosure.calm switched := by
  refine ⟨fun _ => rfl, fun i hi => ?_, rfl, rfl⟩
  obtain h | h | h := reached_from_second sinks_second_switched sinks_third_switched hi
  · cases h
  · cases h
  · cases h
    exact List.isEmpty_iff.1 (by decide +kernel)

theorem worksInside_switched : enclosure.WorksInside ⟨0⟩ := by
  intro w g hw hgraph
  rw [hw.2.2.1] at hgraph
  cases hgraph
  exact .source rfl

theorem admitsBuilders_switched : enclosure.AdmitsBuilders (hostOfDepth 3) ⟨0⟩ := by
  intro w builder hw _ hasked
  rw [hw.2.2.1] at hasked
  cases hasked
  refine ⟨Spares.of_reads (.pure ()) fun _ _ => rfl, fun w items _ hitems item hitem => ?_⟩
  cases hitems
  -- the id is looked up in the second graph, and the third one is its sink
  have hthird : enclosure.inside (.graph ⟨2⟩) := by
    refine World.Reaches.sink (.source rfl) ?_
    rw [sinks_second_switched]
    exact List.mem_singleton_self _
  obtain rfl | hitem := List.mem_cons.1 hitem
  · exact Enclosure.admits_named worksInside_switched (.str "x")
  · rw [List.mem_singleton.1 hitem]
    exact Enclosure.admits_view (v := view ⟨2⟩) hthird ⟨0⟩

end Confinement

open Confinement

/-- The first graph keeps the marks of the tree that was computed on it before. -/
theorem compute_spares_outsider_switched :
    (isFlagged switched ⟨0⟩ = true ∧ isFlagged switched ⟨1⟩ = false
      ∧ isFlagged ((compute (hostOfDepth 3) ⟨0⟩).exec switched).2 ⟨1⟩ = true)
    ∧ ((compute (hostOfDepth 3) ⟨0⟩).exec switched).2.objectAt ⟨0⟩ = switched.objectAt ⟨0⟩
    ∧ ∀ sinks, (compute (hostOfDepth 3) ⟨0⟩).exec (switched.reattached ⟨0⟩ sinks)
      = (((compute (hostOfDepth 3) ⟨0⟩).exec switched).1,
        ((compute (hostOfDepth 3) ⟨0⟩).exec switched).2.reattached ⟨0⟩ sinks) := by
  have houtsider : enclosure.outsider = ⟨0⟩ := rfl
  obtain ⟨hobject, hunheard⟩ := compute_spares_outsider (e := enclosure) (Enclosure.tame_ofWorld _)
    worksInside_switched admitsBuilders_switched calm_switched
  rw [houtsider] at hobject hunheard
  exact ⟨⟨by decide +kernel, by decide +kernel, by decide +kernel⟩, hobject, hunheard⟩

/-- **A view of an edge elsewhere is marked elsewhere.**  The tree works on the second
graph and its builder lists the edge of the first, which is no sink of the second: the
mark is written there, and the recorder of the first graph is told. -/
theorem compute_marks_listed_view :
    ¬ (stage (tree ⟨1⟩ [(view ⟨0⟩).toValue])).Reaches (· = ⟨1⟩) (.graph ⟨0⟩)
    ∧ isFlagged (stage (tree ⟨1⟩ [(view ⟨0⟩).toValue])) ⟨0⟩ = false
    ∧ isFlagged ((compute (hostOfDepth 3) ⟨0⟩).exec
      (stage (tree ⟨1⟩ [(view ⟨0⟩).toValue]))).2 ⟨0⟩ = true
    ∧ (((compute (hostOfDepth 3) ⟨0⟩).exec
      (stage (tree ⟨1⟩ [(view ⟨0⟩).toValue]))).2.received.map (·.recorder)).getLast? = some "r" :=
  ⟨not_reaches_first rfl rfl, by decide +kernel, by decide +kernel, by decide +kernel⟩

end EvolvingGraph
