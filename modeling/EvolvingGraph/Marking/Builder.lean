/-
  EvolvingGraph.Marking.Builder
  ─────────────────────────────
  **TREES WITH A BUILDER OF THEIR OWN, AND LOGGED ASSIGNMENTS.**

  The custom strategy asks a builder for the edges.  A builder first plays its
  steps, then lists edges or ids: given ones, all with an attribute, all from a
  source, or what Kruskal's algorithm chooses.  Some lists are settled when the
  builder answers, others only as they are gone through.

  A flag that matches the other one is refused without a failure; a line in the
  log says so.

  Main statement: `treeItems_of_kruskal` — the other strategies ask no builder.
-/
import EvolvingGraph.Evaluation
import EvolvingGraph.Marking.Tree

namespace EvolvingGraph

/-! ## §1. Builders. -/

/-- The ids of the edges that have an attribute. -/
def idsHaving (graph : Graph) (name : Value) : Except Error (List Identifier) :=
  graph.edges.identifiers.filterM fun id => do
    let attributes ← graph.edgeAttributes id.value
    let k ← Graph.keyOf name
    return attributes.contains k

/-- What a builder lists for a tree, once its steps have been played. -/
def answerOf (t : TreeRef) : BuilderKind → Run (List TreeItem)
  | .answer v => do itemsOfValue (← evaluate v)
  | .views ids => do
    let g ← treeGraph t
    let views ← (← evaluateAll ids).mapM (lookUp g)
    return views.map .view
  | .fromSource node => do
    let g ← treeGraph t
    let node ← evaluate node
    let ids := (← World.graph g).edges.identifiers
    return ids.map fun id => .fromSource g id node
  | .having name => do
    let g ← treeGraph t
    let name ← evaluate name
    let ids ← Run.ofExcept (idsHaving (← World.graph g) name)
    return ids.map fun id => TreeItem.ofValue id.value
  | .kruskal => chosenItems t .kruskal
  | .notCallable _ => throw .notIterable

/-- Call a builder: play its steps, then take its answer. -/
def callBuilder (host : Host) (t : TreeRef) (builder : Builder Step) : Run (List TreeItem) := do
  host.play none builder.steps
  answerOf t builder.kind

/-- What is listed for a tree by its strategy. -/
def treeItems (host : Host) (t : TreeRef) : Run (List TreeItem) := do
  let tree ← World.tree t
  match tree.strategy, tree.builder with
  | .kruskal, _ => chosenItems t .kruskal
  | .prim, _ => chosenItems t .prim
  | .custom, some builder => callBuilder host t builder
  | .custom, none => throw .notIterable

theorem treeItems_of_kruskal (host : Host) (t : TreeRef) (w : World)
    (h : (w.trees.get t.index).strategy = .kruskal) :
    (treeItems host t).exec w = (chosenItems t .kruskal).exec w := by
  simp [treeItems, World.tree, h]

/-- Compute a tree by its own strategy. -/
def compute (host : Host) (t : TreeRef) : Run Unit := computeTree host t (treeItems host t)

/-! ## §2. Assignments. -/

/-- What a builder term offers to a tree.  "Nothing" in the place of a builder
is no builder. -/
def offer : Option (Builder Step) → Run (Offered (Builder Step))
  | none => pure .nothing
  | some builder =>
    match builder.kind with
    | .notCallable v => return if (← evaluate v).isNull then .nothing else .notCallable
    | _ => pure (.callable builder)

/-- Assign the value of tree edges, and say whether it was accepted. -/
def assignFlagOn (t : TreeRef) (v : Value) : Run Bool := do
  match ← Run.ofExcept ((← World.tree t).setFlagOn v) with
  | some tree => World.setTree t tree; return true
  | none => World.note (.ignoredFlagOn v); return false

/-- Assign the value of the other edges, and say whether it was accepted. -/
def assignFlagOff (t : TreeRef) (v : Value) : Run Bool := do
  match ← Run.ofExcept ((← World.tree t).setFlagOff v) with
  | some tree => World.setTree t tree; return true
  | none => World.note (.ignoredFlagOff v); return false

/-- Assign a property of a tree. -/
def assignProperty (t : TreeRef) (property : TreeProperty) (v : Value) : Run Unit := do
  let tree ← World.tree t
  match property with
  | .strategy => World.setTree t (← Run.ofExcept (tree.setStrategy v))
  | .mode => World.setTree t (← Run.ofExcept (tree.setMode v))
  | .flagOn => discard (assignFlagOn t v)
  | .flagOff => discard (assignFlagOff t v)
  | .flagAttribute => World.setTree t { tree with flagAttribute := v }
  | .weightAttribute => World.setTree t { tree with weightName := v }

end EvolvingGraph
