/-
  EvolvingGraph.Proofs.Marking.Lookups
  ────────────────────────────────────
  **LOOKING UP THE EDGES THAT ARE TO BE MARKED.**

  What a tree's algorithm chooses, and what an item stands for, is found by reading
  alone.  An id is looked up in the graph that the tree works on at that time, and a
  view that is looked up is one of the graph it was asked of.

  Main statements:
    * `reads_resolveItem`, `reads_resolveEdge`, `reads_chosenItems` — nothing is changed by looking;
    * `graph_of_named` — an id stands for an edge of the tree's graph.
-/
import EvolvingGraph.Marking.Builder
import EvolvingGraph.Proofs.Delivery.Commit

namespace EvolvingGraph

/-! ## §1. Reading. -/

theorem reads_treeGraph (t : TreeRef) : (treeGraph t).Reads := by
  refine .bind (.tree t) fun tree => ?_
  split
  · exact .pure _
  · exact .throw _

theorem reads_lookUp (g : GraphRef) (id : Value) : (lookUp g id).Reads :=
  .bind (.graph g) fun graph => .ofExcept (graph.view g id)

theorem reads_chosenItems (t : TreeRef) (algorithm : Algorithm) :
    (chosenItems t algorithm).Reads := by
  refine .bind (reads_treeGraph t) fun g => .bind (.tree t) fun tree => ?_
  exact .bind (.graph g) fun graph => .bind (.ofExcept _) fun ids => .pure _

theorem reads_resolveItem (t : TreeRef) (item : TreeItem) : (resolveItem t item).Reads := by
  cases item with
  | named id =>
    exact .bind (reads_treeGraph t) fun g => .bind (reads_lookUp g id) fun _ => .pure _
  | view e => exact .pure _
  | fromSource g id node =>
    refine .bind (.graph g) fun graph => ?_
    split
    · refine .bind (.ofExcept _) fun e => ?_
      split
      · exact .pure _
      · exact .pure _
      · exact .throw _
    · exact .pure _
  | attributeAt e number =>
    refine .bind (.graph _) fun graph => .bind (.ofExcept _) fun attributes => ?_
    split
    · exact .throw _
    · exact .pure _
    · exact .bind (reads_treeGraph t) fun g => .bind (reads_lookUp g _) fun _ => .pure _

theorem reads_resolveEdge (t : TreeRef) (v : Value) : (resolveEdge t v).Reads := by
  cases v with
  | edge x id source target => exact .pure _
  | _ =>
    refine .bind (.tree t) fun tree => ?_
    split
    · exact reads_lookUp _ _
    · exact .throw _

/-! ## §2. What is found. -/

/-- A view is one of the graph that it was asked of. -/
theorem graph_eq_of_view {graph : Graph} {g : GraphRef} {id : Value} {e : EdgeView}
    (h : graph.view g id = .ok e) : e.graph = g := by
  simp only [Graph.view, bind_eq_ok_iff, pure_eq_ok_iff] at h
  obtain ⟨_, _, rfl⟩ := h
  rfl

/-- An id stands for an edge of the graph that the tree works on. -/
theorem graph_of_named {t : TreeRef} {id : Value} {e : EdgeView} {w : World}
    (h : ((resolveItem t (.named id)).exec w).1 = .ok (some e)) :
    (w.trees.get t.index).graph = some e.graph := by
  cases hgraph : (w.trees.get t.index).graph with
  | none => simp [resolveItem, treeGraph, hgraph] at h
  | some g =>
    have hview : (w.objectAt g).graph.view g id = .ok e := by
      cases hview : (w.objectAt g).graph.view g id with
      | error fault => simp [resolveItem, treeGraph, lookUp, hgraph, hview] at h
      | ok found => simpa [resolveItem, treeGraph, lookUp, hgraph, hview] using h
    rw [graph_eq_of_view hview]

theorem exec_chosenItems_ok {algorithm : Algorithm} {items : List TreeItem} {w : World}
    (h : ((chosenItems t algorithm).exec w).1 = .ok items) :
    ∃ ids : List Value, items = ids.map .named := by
  cases hgraph : (w.trees.get t.index).graph with
  | none => simp [chosenItems, treeGraph, hgraph] at h
  | some g =>
    cases hids : (w.objectAt g).graph.spanningIds algorithm (w.trees.get t.index).mode
        (w.trees.get t.index).weightName with
    | error fault => simp [chosenItems, treeGraph, hgraph, hids] at h
    | ok ids =>
      refine ⟨ids, ?_⟩
      simpa [chosenItems, treeGraph, hgraph, hids] using h.symm

/-- The strategies without a builder list what an algorithm chooses. -/
theorem exec_treeItems_of_ne_custom (host : Host) {t : TreeRef} {w : World}
    (h : (w.trees.get t.index).strategy ≠ .custom) :
    ∃ algorithm, (treeItems host t).exec w = (chosenItems t algorithm).exec w := by
  cases hstrategy : (w.trees.get t.index).strategy with
  | kruskal => exact ⟨.kruskal, by simp [treeItems, hstrategy]⟩
  | prim => exact ⟨.prim, by simp [treeItems, hstrategy]⟩
  | custom => exact absurd hstrategy h

end EvolvingGraph
