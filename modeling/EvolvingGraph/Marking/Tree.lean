/-
  EvolvingGraph.Marking.Tree
  ──────────────────────────
  **MARKING THE EDGES OF A SPANNING TREE.**

  To compute a tree, every edge is first given the value of the edges outside
  the tree; then the chosen edges are marked, each as soon as it is chosen.
  Edges are chosen by their ids, and an id is looked up only when its turn has
  come: in between, sinks may have changed the graph, the tree, or both.
-/
import EvolvingGraph.Delivery
import EvolvingGraph.Forest.Selection

namespace EvolvingGraph

/-! ## §1. Single edges. -/

/-- The graph that a tree works on. -/
def treeGraph (t : TreeRef) : Run GraphRef := do
  match (← World.tree t).graph with
  | some g => return g
  | none => throw .noGraph

/-- The view of an edge of a graph, as it is now. -/
def lookUp (g : GraphRef) (id : Value) : Run EdgeView := do
  let graph ← World.graph g
  Run.ofExcept (graph.view g id)

/-- The edge that a value stands for: a view is one, all else is an id. -/
def resolveEdge (t : TreeRef) (v : Value) : Run EdgeView := do
  match v with
  | .edge graph id source target => return ⟨graph, id, source, target⟩
  | id =>
    match (← World.tree t).graph with
    | some g => lookUp g id
    | none => throw .noGraphForId

/-- Set an attribute of the edge that a view shows. -/
def setOnView (host : Host) (e : EdgeView) (name value : Value) : Run Unit :=
  commit host e.graph (.setAttribute .edge e.id name value)

/-- Mark an edge as a tree edge. -/
def markOn (host : Host) (t : TreeRef) (e : EdgeView) : Run Unit := do
  let tree ← World.tree t
  setOnView host e tree.flagAttribute tree.flagOn

/-- Mark an edge as one outside the tree. -/
def markOff (host : Host) (t : TreeRef) (e : EdgeView) : Run Unit := do
  let tree ← World.tree t
  setOnView host e tree.flagAttribute tree.flagOff

/-- Do something with each edge that a graph has now and still has when its
turn comes. -/
def forEachEdge (g : GraphRef) (act : EdgeView → Run Unit) : Run Unit := do
  let ids := (← World.graph g).edges.identifiers
  ids.forM fun id => do
    let graph ← World.graph g
    if graph.edges.contains id.key then
      act (← Run.ofExcept (graph.view g id.value))

/-- Mark every edge of the graph as one outside the tree. -/
def resetMarks (host : Host) (t : TreeRef) : Run Unit := do
  match (← World.tree t).graph with
  | some g => forEachEdge g (markOff host t)
  | none => pure ()

/-- Remove the marks from every edge of the graph. -/
def clearMarks (host : Host) (t : TreeRef) : Run Unit := do
  match (← World.tree t).graph with
  | some g => forEachEdge g fun e => do
    let current ← treeGraph t
    let tree ← World.tree t
    commit host current (.removeAttribute .edge e.id tree.flagAttribute)
  | none => pure ()

/-! ## §2. What a builder lists. -/

/-- One item of what a builder lists. -/
inductive TreeItem where
  /-- An id, looked up in the tree's graph when its turn comes. -/
  | named (id : Value)
  | view (e : EdgeView)
  /-- An edge of a graph that counts if it is there when its turn comes and its
  source equals the node. -/
  | fromSource (g : GraphRef) (id : Identifier) (node : Value)
  /-- Whatever an edge has as the attribute with the given number for a name. -/
  | attributeAt (e : EdgeView) (number : Nat)

/-- A value in a list of edges: a view stands for itself, all else is an id. -/
def TreeItem.ofValue : Value → TreeItem
  | .edge graph id source target => .view ⟨graph, id, source, target⟩
  | id => .named id

/-- The items of a value that can be gone through.  An edge view is gone
through by the attributes 0, 1, 2, …, until one is missing. -/
def itemsOfValue (v : Value) : Run (List TreeItem) := do
  match v with
  | .tuple items | .list items => return items.map TreeItem.ofValue
  | .str s => return s.toList.map fun c => .named (.str (String.singleton c))
  | .edge graph id source target =>
    let attributes := (← World.graph graph).edgeAttributes id
    let count := match attributes with
      | .ok attributes => attributes.size
      | .error _ => 0
    return (List.range (count + 1)).map (.attributeAt ⟨graph, id, source, target⟩)
  | _ => throw .notIterable

/-- The ids that an algorithm chooses. -/
def chosenItems (t : TreeRef) (algorithm : Algorithm) : Run (List TreeItem) := do
  let g ← treeGraph t
  let tree ← World.tree t
  let graph ← World.graph g
  let ids ← Run.ofExcept (graph.spanningIds algorithm tree.mode tree.weightName)
  return ids.map .named

/-- The edge that an item stands for when its turn has come, if it counts. -/
def resolveItem (t : TreeRef) (item : TreeItem) : Run (Option EdgeView) := do
  match item with
  | .named v => return some (← lookUp (← treeGraph t) v)
  | .view e => return some e
  | .fromSource g id node =>
    let graph ← World.graph g
    if graph.edges.contains id.key then
      let e ← Run.ofExcept (graph.view g id.value)
      match e.source.equals node with
      | .ok true => return some e
      | .ok false => return none
      | .error fault => throw (.comparison fault)
    else return none
  | .attributeAt e number =>
    let graph ← World.graph e.graph
    let attributes ← Run.ofExcept (graph.edgeAttributes e.id)
    match attributes.get? (.int number) with
    | none => throw .missingKey
    | some (.edge graph id source target) => return some ⟨graph, id, source, target⟩
    | some id => return some (← lookUp (← treeGraph t) id)

/-- The edges that items stand for, all looked up in turn. -/
def resolveItems (t : TreeRef) (items : List TreeItem) : Run (List EdgeView) := do
  let found ← items.mapM (resolveItem t)
  return found.filterMap id

/-! ## §3. Computing a tree. -/

/-- Mark the edges that items stand for, one after the other, and count them. -/
def markItems (host : Host) (t : TreeRef) : List TreeItem → Run Nat
  | [] => pure 0
  | item :: rest => do
    match ← resolveItem t item with
    | some e =>
      markOn host t e
      return (← markItems host t rest) + 1
    | none => markItems host t rest

/-- Compute the tree; `build` says what is listed for it. -/
def computeTree (host : Host) (t : TreeRef) (build : Run (List TreeItem)) : Run Unit := do
  let tree ← World.tree t
  match tree.graph with
  | none => World.note .nothingToCompute
  | some g =>
    let object ← World.graphObject g
    World.note (.computing tree.strategy tree.mode (object.graph.describe object.emitter.id))
    resetMarks host t
    let items ← build
    let marked ← markItems host t items
    let current ← treeGraph t
    World.note (.computed marked (← World.graph current).edges.size)

/-! ## §4. Reading marks. -/

/-- Whether an edge is marked as a tree edge. -/
def isMarked (tree : Tree) (graph : Graph) (id : Value) : Except Error Bool := do
  let attributes ← graph.edgeAttributes id
  let k ← Graph.keyOf tree.flagAttribute
  match attributes.get? k with
  | none => return false
  | some flag => flagsMatch flag tree.flagOn

/-- The edges that are marked, in order. -/
def markedEdges (tree : Tree) (g : GraphRef) (graph : Graph) : Except Error (List EdgeView) :=
  (graph.views g).filterM fun e => isMarked tree graph e.id

/-- Add the weight of an edge to a sum, if the edge is marked. -/
def addMarkedWeight (tree : Tree) (graph : Graph) (sum : Double) (e : EdgeView) :
    Except Error Double := do
  if ← isMarked tree graph e.id then
    let weight ← graph.edgeWeight e.id tree.weightName
    return sum.add (.real (weight.getD .one))
  else return sum

/-- The weights of the marked edges, added up in order. -/
def markedWeight (tree : Tree) (g : GraphRef) (graph : Graph) : Except Error Double :=
  (graph.views g).foldlM (addMarkedWeight tree graph) .zero

end EvolvingGraph
