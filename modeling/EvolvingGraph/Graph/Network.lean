/-
  EvolvingGraph.Graph.Network
  ───────────────────────────
  **NODES, AND LINKS BETWEEN PAIRS OF THEM.**

  A network has nodes in the order in which they were added, and links in the
  order in which their pairs were connected; at most one link joins a pair.
  In a directed network a pair is ordered.  Nodes and links carry attributes.

  There is one order in which a network lists its links (`Network.listing`):
  node by node, each link at the first of its ends that is reached, and the
  links of one node in the order of connection.
-/
import EvolvingGraph.Catalog

namespace EvolvingGraph

/-- A link between two nodes: its ends as they were given, and its attributes. -/
structure Link where
  source : Identifier
  target : Identifier
  attributes : Attributes

namespace Link

/-- Whether a link joins `a` to `b`. -/
def joins (l : Link) (directed : Bool) (a b : Key) : Bool :=
  (l.source.key == a && l.target.key == b)
    || (!directed && l.source.key == b && l.target.key == a)

/-- Whether a node is an end of a link. -/
def touches (l : Link) (k : Key) : Bool := l.source.key == k || l.target.key == k

/-- The end of a link that is met when it is left at node `k`. -/
def far (l : Link) (k : Key) : Identifier := if l.source.key = k then l.target else l.source

/-- Whether both ends of a link are the same node. -/
def isLoop (l : Link) : Bool := l.source.key == l.target.key

end Link

/-- Nodes, and links between pairs of them. -/
structure Network where
  directed : Bool
  nodes : Catalog Attributes
  links : List Link

namespace Network

/-- The network without nodes. -/
def empty (directed : Bool) : Network := ⟨directed, .empty, []⟩

instance : Inhabited Network := ⟨empty false⟩

/-! ## §1. Looking up. -/

/-- The link that joins `a` to `b`. -/
def link? (n : Network) (a b : Key) : Option Link := n.links.find? (·.joins n.directed a b)

/-- Whether some link joins `a` to `b`. -/
def linked (n : Network) (a b : Key) : Bool := (n.link? a b).isSome

/-! ## §2. Changing. -/

/-- Remove a node and every link that it is an end of. -/
def eraseNode (n : Network) (k : Key) : Network :=
  { n with nodes := n.nodes.erase k, links := n.links.filter (!·.touches k) }

/-- Connect a pair that is not connected yet. -/
def connect (n : Network) (source target : Identifier) : Network :=
  { n with links := n.links ++ [⟨source, target, .empty⟩] }

/-- Remove the link between a pair. -/
def disconnect (n : Network) (a b : Key) : Network :=
  { n with links := n.links.filter (!·.joins n.directed a b) }

/-- Change the attributes of the link between a pair. -/
def modifyLink (n : Network) (a b : Key) (f : Attributes → Attributes) : Network :=
  { n with links := n.links.map fun l =>
      if l.joins n.directed a b then { l with attributes := f l.attributes } else l }

/-- Add attributes to a node, which is added itself if it is not there. -/
def mergeNode (n : Network) (id : Identifier) (attributes : Attributes) : Network :=
  let old := (n.nodes.get? id.key).getD .empty
  { n with nodes := n.nodes.insert id (old.insertAll attributes.entries) }

/-- Add attributes to the link between a pair, which is connected if it is not. -/
def mergeLink (n : Network) (source target : Identifier) (attributes : Attributes) : Network :=
  let n := if n.linked source.key target.key then n else n.connect source target
  n.modifyLink source.key target.key (·.insertAll attributes.entries)

/-! ## §3. Listing the links. -/

/-- A link as it is listed: the node it is listed at, its other end, and its attributes. -/
structure Listed where
  source : Value
  target : Value
  sourceKey : Key
  targetKey : Key
  attributes : Attributes

/-- A link as it is listed at a node. -/
def listedAt (node : Identifier) (l : Link) : Listed where
  source := node.value
  target := (l.far node.key).value
  sourceKey := node.key
  targetKey := (l.far node.key).key
  attributes := l.attributes

/-- The links that leave each of the given nodes. -/
def listDirected (links : List Link) (nodes : List Identifier) : List Listed :=
  nodes.flatMap fun node =>
    (links.filter (·.source.key == node.key)).map (listedAt node)

/-- The links at each of the given nodes, each at the first of its ends. -/
def listUndirected (links : List Link) : List Identifier → List Listed
  | [] => []
  | node :: rest =>
    (links.filter (·.touches node.key)).map (listedAt node)
      ++ listUndirected (links.filter (!·.touches node.key)) rest

/-- The links in the order in which a network lists them. -/
def listing (n : Network) : List Listed :=
  if n.directed then listDirected n.links n.nodes.identifiers
  else listUndirected n.links n.nodes.identifiers

/-! ## §4. Connectedness. -/

/-- The far ends of the links that touch one of the given nodes. -/
def neighbours (n : Network) (reached : List Key) : List Key :=
  n.links.flatMap fun l =>
    (if reached.contains l.source.key then [l.target.key] else [])
      ++ (if reached.contains l.target.key then [l.source.key] else [])

/-- The nodes within `steps` links of the given ones, direction ignored. -/
def reachWithin (n : Network) : (steps : Nat) → List Key → List Key
  | 0, reached => reached
  | steps + 1, reached =>
    n.reachWithin steps
      (reached ++ (n.neighbours reached).eraseDups.filter (!reached.contains ·))

/-- Whether there is a node and every node can be reached from it along links,
direction ignored. -/
def isConnected (n : Network) : Bool :=
  match n.nodes.identifiers with
  | [] => false
  | first :: _ =>
    let reached := n.reachWithin n.nodes.size [first.key]
    n.nodes.identifiers.all fun node => reached.contains node.key

end Network
end EvolvingGraph
