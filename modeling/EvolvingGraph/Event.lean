/-
  EvolvingGraph.Event
  ───────────────────
  **CHANGES TO A GRAPH, AND THE EVENTS THAT REPORT THEM.**

  A `Change` is one elementary request: add or remove one node or edge, set or
  remove one attribute, or clear everything.  Each change that takes effect is
  reported by at most one `Event`, which carries the values of the request and,
  for attributes, the old value.  Seen by a graph that follows another one, an
  event is again a change (`Event.asChange`); the old value is then ignored.

  Main statements:
    * `ofArguments?_arguments` — an event is determined by its kind and arguments.
-/
import EvolvingGraph.Catalog

namespace EvolvingGraph

/-- The elements that carry attributes. -/
inductive ElementKind where
  | node
  | edge
  deriving DecidableEq, Repr

/-- An elementary request. -/
inductive Change where
  | addNode (id : Value)
  | removeNode (id : Value)
  | addEdge (id source target : Value)
  | removeEdge (id : Value)
  | setAttribute (on : ElementKind) (id name value : Value)
  | removeAttribute (on : ElementKind) (id name : Value)
  | clear

/-- A report of a change that took effect. -/
inductive Event where
  | nodeAdded (id : Value)
  | nodeRemoved (id : Value)
  | edgeAdded (id source target : Value)
  | edgeRemoved (id : Value)
  | attributeChanged (on : ElementKind) (id name old new : Value)
  | attributeRemoved (on : ElementKind) (id name old : Value)
  | cleared

/-- The kinds of events. -/
inductive EventKind where
  | nodeAdded
  | nodeRemoved
  | edgeAdded
  | edgeRemoved
  | attributeChanged (on : ElementKind)
  | attributeRemoved (on : ElementKind)
  | cleared
  deriving DecidableEq, Repr

namespace Event

def kind : Event → EventKind
  | .nodeAdded _ => .nodeAdded
  | .nodeRemoved _ => .nodeRemoved
  | .edgeAdded .. => .edgeAdded
  | .edgeRemoved _ => .edgeRemoved
  | .attributeChanged on .. => .attributeChanged on
  | .attributeRemoved on .. => .attributeRemoved on
  | .cleared => .cleared

/-- The values that an event carries, in order. -/
def arguments : Event → List Value
  | .nodeAdded id => [id]
  | .nodeRemoved id => [id]
  | .edgeAdded id source target => [id, source, target]
  | .edgeRemoved id => [id]
  | .attributeChanged _ id name old new => [id, name, old, new]
  | .attributeRemoved _ id name old => [id, name, old]
  | .cleared => []

/-- The event of a kind with the given values, if their number is right. -/
def ofArguments? : EventKind → List Value → Option Event
  | .nodeAdded, [id] => some (.nodeAdded id)
  | .nodeRemoved, [id] => some (.nodeRemoved id)
  | .edgeAdded, [id, source, target] => some (.edgeAdded id source target)
  | .edgeRemoved, [id] => some (.edgeRemoved id)
  | .attributeChanged on, [id, name, old, new] => some (.attributeChanged on id name old new)
  | .attributeRemoved on, [id, name, old] => some (.attributeRemoved on id name old)
  | .cleared, [] => some .cleared
  | _, _ => none

theorem ofArguments?_arguments (e : Event) : ofArguments? e.kind e.arguments = some e := by
  cases e <;> rfl

/-- The change by which a graph follows an event of another one. -/
def asChange : Event → Change
  | .nodeAdded id => .addNode id
  | .nodeRemoved id => .removeNode id
  | .edgeAdded id source target => .addEdge id source target
  | .edgeRemoved id => .removeEdge id
  | .attributeChanged on id name _ new => .setAttribute on id name new
  | .attributeRemoved on id name _ => .removeAttribute on id name
  | .cleared => .clear

/-- The id of the edge that an event is about. -/
def edgeId? : Event → Option Value
  | .edgeAdded id .. | .edgeRemoved id => some id
  | .attributeChanged .edge id .. | .attributeRemoved .edge id .. => some id
  | _ => none

end Event

namespace Change

/-- The attribute names that an addition cannot take along, because its own
arguments have them. -/
def reservedNames : Change → List String
  | .addNode _ => ["self", "node_id"]
  | .addEdge .. => ["self", "edge_id", "source", "target"]
  | _ => []

/-- Whether attributes can be given along with a change: every name is text
and none is reserved. -/
def accepts (change : Change) (attributes : Attributes) : Bool :=
  attributes.identifiers.all fun name =>
    match name.value with
    | .str s => !change.reservedNames.contains s
    | _ => false

/-- The settings of attributes that follow an addition. -/
def settings (change : Change) (attributes : Attributes) : List Change :=
  let setEach (on : ElementKind) (id : Value) :=
    attributes.entries.map fun (name, value) => .setAttribute on id name.value value
  match change with
  | .addNode id => setEach .node id
  | .addEdge id .. => setEach .edge id
  | _ => []

/-- The event by which a generator announces a change that it wants made; what
it knows of the old value is passed on.  Nothing announces a clearing. -/
def announcement? (change : Change) (old : Value) : Option Event :=
  match change with
  | .addNode id => some (.nodeAdded id)
  | .removeNode id => some (.nodeRemoved id)
  | .addEdge id source target => some (.edgeAdded id source target)
  | .removeEdge id => some (.edgeRemoved id)
  | .setAttribute on id name value => some (.attributeChanged on id name old value)
  | .removeAttribute on id name => some (.attributeRemoved on id name old)
  | .clear => none

end Change
end EvolvingGraph
