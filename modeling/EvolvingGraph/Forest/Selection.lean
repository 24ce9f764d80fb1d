/-
  EvolvingGraph.Forest.Selection
  ──────────────────────────────
  **THE EDGES OF A GRAPH THAT A FOREST BUILDER CHOOSES.**

  An edge weighs what its weight attribute says, and 1 where that says nothing;
  what is no number is refused, except on an edge that joins a node to itself,
  whose weight is not looked at.  The chosen edges are given by their ids.
-/
import EvolvingGraph.Forest.Kruskal
import EvolvingGraph.Forest.Prim
import EvolvingGraph.Graph.Basic
import EvolvingGraph.Value.Equality
import EvolvingGraph.Value.Number

namespace EvolvingGraph

/-- The two builders of spanning forests. -/
inductive Algorithm where
  | kruskal
  | prim
  deriving DecidableEq, Repr

/-- Whether the two ends of an edge compare as equal. -/
def Endpoints.areEqual (ends : Endpoints) : Bool :=
  match Value.equals ends.source.value ends.target.value with
  | .ok same => same
  | .error _ => false

namespace Graph

/-- The weight that an attribute gives to an edge; none where it says nothing. -/
def edgeWeight (g : Graph) (id name : Value) : Except Error (Option Real64) := do
  let weight ← g.readAttribute .edge id name .null
  match weight.readWeight with
  | .missing => return none
  | .number x => return some x
  | .tooLarge => throw (.conversion .tooLarge)
  | .nan => throw (.weightNaN id name)
  | .notNumber => throw (.weightNotNumber id weight name)

/-- Add an edge of the graph to the bundles, unless its ends are equal. -/
def bundleEdge (g : Graph) (weightName : Value) (bundles : List Forest.Bundle)
    (edge : Identifier × Endpoints) : Except Error (List Forest.Bundle) := do
  let (id, ends) := edge
  if ends.areEqual then return bundles
  let weight ← g.edgeWeight id.value weightName
  return Forest.addEdge bundles ends.source.key ends.target.key id (weight.getD .one)

/-- The weighted edges of a graph in the order in which builders consider them. -/
def weightedEdges (g : Graph) (weightName : Value) : Except Error (List Forest.WeightedEdge) := do
  let bundles ← g.edges.entries.foldlM (g.bundleEdge weightName) []
  return Forest.candidates bundles (g.nodes.identifiers.map (·.key))

/-- The edges that a builder chooses from weighted ones. -/
def choose (g : Graph) (algorithm : Algorithm) (mode : Forest.Mode)
    (edges : List Forest.WeightedEdge) : List Forest.WeightedEdge :=
  match algorithm with
  | .kruskal => Forest.kruskal mode edges
  | .prim => Forest.prim mode edges (g.nodes.identifiers.map (·.key))

/-- The ids of the edges that a builder chooses. -/
def spanningIds (g : Graph) (algorithm : Algorithm) (mode : Forest.Mode) (weightName : Value) :
    Except Error (List Value) := do
  let edges ← g.weightedEdges weightName
  return (g.choose algorithm mode edges).map (·.id.value)

end Graph
end EvolvingGraph
