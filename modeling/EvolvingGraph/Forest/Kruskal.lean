/-
  EvolvingGraph.Forest.Kruskal
  ────────────────────────────
  **A SPANNING FOREST FROM EDGES IN THE ORDER OF THEIR WEIGHTS.**

  All edges are sorted by how much their weight is wanted, equal ones staying
  in their order, and scanned once; an edge is taken unless its ends are
  already connected by edges taken before it.  Which nodes are connected is
  kept as a labelling: two nodes are when they have the same label.

  The labelling stands for the union-find of the graph library, networkx, and is an
  idealisation at one kind of node.  There the block of a node is looked up by
  climbing from name to name until one equals the next, and a NaN never equals
  itself: where an end of an edge is a NaN, and not merely part of a tuple, that
  lookup does not return.  Here nodes are told apart by their keys, so a NaN has a
  block like any other node, and what is proved of the scan holds of this labelling.

  Main statement:
    * `scan_sublist` — only edges that were offered are taken, in their order.
-/
import EvolvingGraph.Forest.Basic

namespace EvolvingGraph.Forest

/-- A division of the nodes into blocks: each node has the label of its block. -/
structure Partition where
  label : Key → Key

namespace Partition

/-- Each node in a block of its own. -/
def discrete : Partition := ⟨id⟩

/-- Whether two nodes are in one block. -/
def connected (p : Partition) (a b : Key) : Bool := p.label a == p.label b

/-- Unite the blocks of two nodes: the label of the first gives way to that of
the second. -/
def merge (p : Partition) (a b : Key) : Partition :=
  let old := p.label a
  let new := p.label b
  ⟨fun k => let label := p.label k; if label = old then new else label⟩

end Partition

/-- Take each edge whose ends are not connected yet. -/
def scan (p : Partition) : List WeightedEdge → List WeightedEdge
  | [] => []
  | e :: rest =>
    if p.connected e.a e.b then scan p rest
    else e :: scan (p.merge e.a e.b) rest

theorem scan_sublist (p : Partition) (edges : List WeightedEdge) :
    (scan p edges).Sublist edges := by
  induction edges generalizing p with
  | nil => exact List.Sublist.slnil
  | cons e rest ih =>
    unfold scan
    split
    · exact (ih p).cons e
    · exact (ih _).cons_cons e

/-- Edges by how much their weight is wanted; equal ones keep their order. -/
def byWeight (mode : Mode) (edges : List WeightedEdge) : List WeightedEdge :=
  edges.mergeSort fun e f => mode.prefers e.weight f.weight

/-- The edges that the scan takes from the candidates. -/
def kruskal (mode : Mode) (edges : List WeightedEdge) : List WeightedEdge :=
  scan .discrete (byWeight mode edges)

end EvolvingGraph.Forest
