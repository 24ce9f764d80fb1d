/-
  EvolvingGraph.Graph.Basic
  ─────────────────────────
  **GRAPHS WHOSE EDGES HAVE IDS, AND WHAT ONE CHANGE DOES TO THEM.**

  A graph is a network together with a table that gives each edge id its two
  ends; the attributes of an edge are those of the link between its ends.  The
  two are kept apart because a change to one can be interrupted before the
  other is made.  `Graph.apply` says what an elementary change does: the graph
  afterwards, and either the event that reports it or the reason why nothing
  was done.  `Graph.plan` lists the elementary changes that a request consists
  of: a node goes after its edges, and attributes are set after an addition.

  Main statement: `apply_clear` — clearing never fails.
-/
import EvolvingGraph.Event
import EvolvingGraph.Graph.Network
import EvolvingGraph.Error

namespace EvolvingGraph

/-- The two ends of an edge, as they were given. -/
structure Endpoints where
  source : Identifier
  target : Identifier

/-- A network whose links are known by edge ids. -/
structure Graph extends Network where
  edges : Catalog Endpoints

namespace Graph

/-- The graph without nodes. -/
def empty (directed : Bool) : Graph := { Network.empty directed with edges := .empty }

instance : Inhabited Graph := ⟨empty false⟩

/-! ## §1. Looking up. -/

/-- Whether a value names a node.  A value that cannot name anything does not. -/
def hasNode (g : Graph) (id : Value) : Bool :=
  match id.key? with
  | some k => g.nodes.contains k
  | none => false

/-- The key of a value that names a node. -/
def nodeKey (g : Graph) (id : Value) : Except Error Key :=
  match id.key? with
  | some k => if g.nodes.contains k then .ok k else .error (.nodeNotFound id)
  | none => .error (.nodeNotFound id)

/-- The key of a value that may name something. -/
def keyOf (id : Value) : Except Error Key :=
  match id.key? with
  | some k => .ok k
  | none => .error .unhashable

/-- A value as the name of something. -/
def identify (id : Value) : Except Error Identifier :=
  match Identifier.ofValue? id with
  | some name => .ok name
  | none => .error .unhashable

/-- Whether a value names an edge. -/
def hasEdge (g : Graph) (id : Value) : Except Error Bool := do
  let k ← keyOf id
  return g.edges.contains k

/-- The ends of the edge with the given id. -/
def endpoints (g : Graph) (id : Value) : Except Error Endpoints := do
  let k ← keyOf id
  match g.edges.get? k with
  | some ends => return ends
  | none => throw (.edgeNotFound id)

/-- The attributes of an edge.  An edge whose link is gone has none to read. -/
def edgeAttributes (g : Graph) (id : Value) : Except Error Attributes := do
  let ends ← g.endpoints id
  match g.link? ends.source.key ends.target.key with
  | some l => return l.attributes
  | none => throw .missingKey

/-- The attributes of a node. -/
def nodeAttributes (g : Graph) (id : Value) : Except Error Attributes := do
  let k ← g.nodeKey id
  return (g.nodes.get? k).getD .empty

/-- The attributes of an element. -/
def attributesOf (g : Graph) : ElementKind → Value → Except Error Attributes
  | .node, id => g.nodeAttributes id
  | .edge, id => g.edgeAttributes id

/-- The value of an attribute, or a default where the element has no such attribute. -/
def readAttribute (g : Graph) (on : ElementKind) (id name default : Value) : Except Error Value := do
  let attributes ← g.attributesOf on id
  let k ← keyOf name
  return (attributes.get? k).getD default

/-- The ids of the edges at a node, in order. -/
def incident (g : Graph) (k : Key) : List Identifier :=
  (g.edges.entries.filter fun (_, ends) => ends.source.key == k || ends.target.key == k).map (·.1)

/-! ## §2. What one change does. -/

/-- What comes of a change: the graph afterwards, and the event to report, if
there is one, or what went wrong. -/
abbrev Outcome := Graph × Except Error (Option Event)

/-- The outcome that leaves the graph alone when something is wrong. -/
def Outcome.ofExcept (g : Graph) : Except Error (Graph × Option Event) → Outcome
  | .ok (g', event) => (g', .ok event)
  | .error e => (g, .error e)

/-- Put attributes in the place of those of an element. -/
def putAttributes (g : Graph) (on : ElementKind) (id : Value) (attributes : Attributes) :
    Except Error Graph :=
  match on with
  | .node => do
    let k ← g.nodeKey id
    return { g with nodes := g.nodes.modify k fun _ => attributes }
  | .edge => do
    let ends ← g.endpoints id
    return { g with
      toNetwork := g.modifyLink ends.source.key ends.target.key fun _ => attributes }

/-- Add a node.  "Nothing" is not a node id. -/
def addNode (g : Graph) (id : Value) : Except Error (Graph × Option Event) := do
  let name ← identify id
  if g.nodes.contains name.key then throw (.nodeInUse id)
  if id.isNull then throw .nullNode
  return ({ g with nodes := g.nodes.insert name .empty }, some (.nodeAdded id))

/-- Remove a node with its links.  Edge ids are not forgotten here. -/
def removeNode (g : Graph) (id : Value) : Except Error (Graph × Option Event) := do
  let k ← keyOf id
  if !g.nodes.contains k then throw .storageFault
  return ({ g with toNetwork := g.eraseNode k }, some (.nodeRemoved id))

/-- Add an edge between two nodes that are not connected yet. -/
def addEdge (g : Graph) (id source target : Value) : Except Error (Graph × Option Event) := do
  let name ← identify id
  if g.edges.contains name.key then throw (.edgeInUse id)
  discard (g.nodeKey source)
  discard (g.nodeKey target)
  let sourceName ← identify source
  let targetName ← identify target
  if g.linked sourceName.key targetName.key then throw (.pairInUse source target)
  return ({ g with
    toNetwork := g.connect sourceName targetName
    edges := g.edges.insert name ⟨sourceName, targetName⟩ }, some (.edgeAdded id source target))

/-- Remove an edge: its id is forgotten first, then its link is removed.  A
table without ids knows no value at all, not even whether it could be an id. -/
def removeEdge (g : Graph) (id : Value) : Outcome :=
  if g.edges.size = 0 then (g, .error (.edgeNotFound id))
  else
    match keyOf id, g.endpoints id with
    | .ok k, .ok ends =>
      let forgotten := { g with edges := g.edges.erase k }
      if g.linked ends.source.key ends.target.key then
        ({ forgotten with toNetwork := g.disconnect ends.source.key ends.target.key },
          .ok (some (.edgeRemoved id)))
      else (forgotten, .error .storageFault)
    | .error e, _ => (g, .error e)
    | _, .error e => (g, .error e)

/-- Set an attribute; the event tells the value it had, nothing if it had none. -/
def setAttribute (g : Graph) (on : ElementKind) (id name value : Value) :
    Except Error (Graph × Option Event) := do
  let attributes ← g.attributesOf on id
  let key ← identify name
  let old := (attributes.get? key.key).getD .null
  let g' ← g.putAttributes on id (attributes.insert key value)
  return (g', some (.attributeChanged on id name old value))

/-- Remove an attribute; one that is not there stays away without an event. -/
def removeAttribute (g : Graph) (on : ElementKind) (id name : Value) :
    Except Error (Graph × Option Event) := do
  let attributes ← g.attributesOf on id
  let k ← keyOf name
  match attributes.get? k with
  | none => return (g, none)
  | some old =>
    let g' ← g.putAttributes on id (attributes.erase k)
    return (g', some (.attributeRemoved on id name old))

/-- What an elementary change does. -/
def apply (g : Graph) : Change → Outcome
  | .addNode id => .ofExcept g (g.addNode id)
  | .removeNode id => .ofExcept g (g.removeNode id)
  | .addEdge id source target => .ofExcept g (g.addEdge id source target)
  | .removeEdge id => g.removeEdge id
  | .setAttribute on id name value => .ofExcept g (g.setAttribute on id name value)
  | .removeAttribute on id name => .ofExcept g (g.removeAttribute on id name)
  | .clear => (empty g.directed, .ok (some .cleared))

theorem apply_clear (g : Graph) : g.apply .clear = (empty g.directed, .ok (some .cleared)) := rfl

/-! ## §3. Requests made of several changes. -/

/-- The elementary changes of a request with attributes, in order.  They are
settled when the request is made. -/
def plan (g : Graph) (change : Change) (attributes : Attributes) : Except Error (List Change) :=
  match change with
  | .removeNode id => do
    let k ← g.nodeKey id
    return (g.incident k).map (.removeEdge ·.value) ++ [.removeNode id]
  | change => return change :: change.settings attributes

/-- Make changes one after the other, with nobody watching. -/
def applyAll (g : Graph) : List Change → Except Error Graph
  | [] => .ok g
  | change :: rest =>
    match g.apply change with
    | (g', .ok _) => g'.applyAll rest
    | (_, .error e) => .error e

/-- Make a request with nobody watching. -/
def perform (g : Graph) (change : Change) (attributes : Attributes) : Except Error Graph := do
  if !change.accepts attributes then throw .badArgument
  let changes ← g.plan change attributes
  g.applyAll changes

/-! ## §4. Views. -/

/-- The view of an edge of the graph at `ref`, under the id it is asked for. -/
def view (g : Graph) (ref : GraphRef) (id : Value) : Except Error EdgeView := do
  let ends ← g.endpoints id
  return ⟨ref, id, ends.source.value, ends.target.value⟩

/-- The views of all edges, in order. -/
def views (g : Graph) (ref : GraphRef) : List EdgeView :=
  g.edges.entries.map fun (id, ends) => ⟨ref, id.value, ends.source.value, ends.target.value⟩

/-- The place of an edge among the edges, if its id is known. -/
def edgePosition? (g : Graph) (id : Value) : Option Nat :=
  id.key?.bind fun k => g.edges.identifiers.findIdx? (·.key == k)

/-- One line about a graph. -/
def describe (g : Graph) (id : Value) : String :=
  "Graph(id=" ++ id.inspect ++ ", " ++ (if g.directed then "directed" else "undirected")
    ++ ", n_nodes=" ++ toString g.nodes.size ++ ", n_edges=" ++ toString g.edges.size ++ ")"

end Graph
end EvolvingGraph
