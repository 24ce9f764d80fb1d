/-
  EvolvingGraph.Forest.Basic
  ──────────────────────────
  **WEIGHTED EDGES BETWEEN NODES, WITHOUT DIRECTION.**

  A spanning forest is built from weighted edges whose direction does not
  matter.  Several edges may join the same two nodes: in a directed graph one
  each way.  They are kept in bundles, one for a pair, in the order in which
  the pairs first came up; inside a bundle an edge is found by its id.

  The order in which a forest builder considers the edges
  (`candidates`) goes node by node: at each node the bundles to nodes that had
  no turn yet, in the order of the bundles.

  Main statement: `Mode.prefers_total` — either mode orders all weights.
-/
import EvolvingGraph.Catalog

namespace EvolvingGraph.Forest

/-! ## §1. Modes. -/

/-- Whether weights are distances, of which small ones are wanted, or
similarities, of which large ones are. -/
inductive Mode where
  | distance
  | similarity
  deriving DecidableEq, Repr

namespace Mode

/-- Whether a weight is at least as wanted as another. -/
def prefers : Mode → Real64 → Real64 → Bool
  | .distance, x, y => decide (x ≤ y)
  | .similarity, x, y => decide (y ≤ x)

theorem prefers_total (mode : Mode) (x y : Real64) :
    mode.prefers x y = true ∨ mode.prefers y x = true := by
  cases mode <;> simp [prefers, Real64.le_iff_rank] <;> omega

/-- The word for a mode. -/
def name : Mode → String
  | .distance => "distance"
  | .similarity => "similarity"

/-- The mode that a word stands for. -/
def ofName? (s : String) : Option Mode := [distance, similarity].find? (·.name == s)

end Mode

/-! ## §2. Bundles. -/

/-- An edge between two nodes: the id that it is found by, and its weight. -/
structure WeightedEdge where
  a : Key
  b : Key
  id : Identifier
  weight : Real64

/-- The edges that join one pair of nodes. -/
structure Bundle where
  a : Key
  b : Key
  edges : Catalog Real64

namespace Bundle

def joins (bundle : Bundle) (a b : Key) : Bool :=
  (bundle.a == a && bundle.b == b) || (bundle.a == b && bundle.b == a)

def touches (bundle : Bundle) (k : Key) : Bool := bundle.a == k || bundle.b == k

/-- The id of an edge inside a bundle.  An edge whose id is "nothing" is known
there by the number of edges it finds, or the next number that is free. -/
def idFor (edges : Catalog Real64) (id : Identifier) : Identifier :=
  if id.key = .null then
    let isFree (n : Nat) : Bool := !edges.contains (.int n)
    let n := ((List.range (edges.size + 1)).map (edges.size + ·)).find? isFree
    .ofInt (n.getD edges.size : Nat)
  else id

/-- The weighted edges of a bundle. -/
def weightedEdges (bundle : Bundle) : List WeightedEdge :=
  bundle.edges.entries.map fun (id, weight) => ⟨bundle.a, bundle.b, id, weight⟩

end Bundle

/-- Add an edge to the bundle of its pair. -/
def addEdge (bundles : List Bundle) (a b : Key) (id : Identifier) (weight : Real64) :
    List Bundle :=
  if bundles.any (·.joins a b) then
    bundles.map fun bundle =>
      if bundle.joins a b then
        { bundle with edges := bundle.edges.insert (Bundle.idFor bundle.edges id) weight }
      else bundle
  else bundles ++ [⟨a, b, Catalog.empty.insert (Bundle.idFor .empty id) weight⟩]

/-! ## §3. Candidates. -/

/-- The edges at each of the given nodes, each at the first of its ends. -/
def candidates (bundles : List Bundle) : (nodes : List Key) → List WeightedEdge
  | [] => []
  | k :: rest =>
    (bundles.filter (·.touches k)).flatMap Bundle.weightedEdges
      ++ candidates (bundles.filter (!·.touches k)) rest

end EvolvingGraph.Forest
