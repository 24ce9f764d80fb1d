/-
  EvolvingGraph.Session.Requests
  ──────────────────────────────
  **REQUESTS TO THE OBJECTS OF A SESSION.**

  For each kind of object, what comes of a request to it: the terms of the
  request are evaluated, the operation of the library is carried out, and its
  result becomes an answer.
-/
import EvolvingGraph.Generation.Scripted
import EvolvingGraph.Import
import EvolvingGraph.Iteration
import EvolvingGraph.Marking.Builder
import EvolvingGraph.Session.Answer

namespace EvolvingGraph.Session

/-! ## §1. Objects and their names. -/

/-- The object that a step is meant for. -/
def addressee (self : Option Object) : Option String → Run Object
  | some name => World.object name
  | none =>
    match self with
    | some object => pure object
    | none => throw .noSuchOperation

/-- The sink that a name refers to. -/
def sinkNamed (name : String) : Run SinkRef := do
  match ← World.object name with
  | .sink s => return s
  | _ => throw .noSuchOperation

/-- The graph that a name refers to. -/
def graphNamed (name : String) : Run GraphRef := do
  match ← World.object name with
  | .sink (.graph g) => return g
  | _ => throw .noSuchOperation

/-- The name under which a graph was made. -/
def labelOf (g : GraphRef) : Run String := return (← World.graphObject g).label

/-- A value as an answer. -/
def answer (v : Value) : Run Answer := pure (.value v)

/-- An operation that answers nothing. -/
def silently (operation : Run Unit) : Run Answer := do
  operation
  return .nothing

/-- Values as a list. -/
def answerList (vs : List Value) : Run Answer := answer (.list vs)

/-- Names as a list. -/
def answerNames (names : List String) : Run Answer := answerList (names.map .str)

/-- Let a name refer to a view, if one is given, and answer the view. -/
def answerView (as : Option String) (e : EdgeView) : Run Answer := do
  match as with
  | some name => World.bind name (.view e)
  | none => pure ()
  answer e.toValue

/-- What a generator does. -/
def hooksOf (host : Host) : GeneratorRef → Hooks := scriptHooks host

/-! ## §2. Graphs. -/

def summaryOf (g : GraphRef) : Run GraphSummary := do
  let object ← World.graphObject g
  return ⟨object.emitter.id, object.graph.directed, object.graph.nodes.size,
    object.graph.edges.size⟩

/-- All nodes and edges of a graph; an edge whose attributes cannot be read
spoils the whole picture. -/
def dumpOf (g : GraphRef) : Run Answer := do
  let summary ← summaryOf g
  let graph ← World.graph g
  let nodes := graph.nodes.entries.map fun (id, attributes) => (id.value, attributes)
  let edges ← (graph.views g).mapM fun e => do
    let attributes ← Run.ofExcept (graph.edgeAttributes e.id)
    return (e, attributes)
  return .dump summary nodes edges

/-- Answer a question to a graph. -/
def askGraph (g : GraphRef) (request : GraphRequest) : Run Answer := do
  let graph ← World.graph g
  match request with
  | .hasNode id | .containsNode id => answer (.bool (graph.hasNode (← evaluate id)))
  | .nodes => answerList (graph.nodes.identifiers.map (·.value))
  | .attributeValue on id name default => do
    let id ← evaluate id
    let name ← evaluate name
    let default ← evaluateOr .null default
    answer (← Run.ofExcept (graph.readAttribute on id name default))
  | .hasEdge id => answer (.bool (← Run.ofExcept (graph.hasEdge (← evaluate id))))
  | .edge id as => do answerView as (← Run.ofExcept (graph.view g (← evaluate id)))
  | .edges => answerList ((graph.views g).map EdgeView.toValue)
  | .info => return .summary (← summaryOf g)
  | .dump => dumpOf g
  | .isConnected => answer (.bool graph.isConnected)
  | .adjacency weight => do
    let name ← evaluateOr (.str "weight") weight
    return .sparse (← Run.ofExcept (graph.adjacency name))
  | .network => return .network graph.toNetwork
  | .table => return .table (← Run.ofExcept (graph.table 0))

/-! ## §3. Changes. -/

/-- A change as it is asked for, evaluated. -/
structure Requested where
  change : Change
  attributes : Attributes
  old : Value
  hasOld : Bool
  /-- What a graph answers when the change is made. -/
  added : Value

/-- Evaluate the terms of a change. -/
def requested : ChangeTerm → Run Requested
  | .addNode id attributes => do
    let id ← evaluate id
    return ⟨.addNode id, ← evaluateAttributes attributes, .null, false, id⟩
  | .removeNode id => return ⟨.removeNode (← evaluate id), .empty, .null, false, .null⟩
  | .addEdge id source target attributes => do
    let id ← evaluate id
    let source ← evaluate source
    let target ← evaluate target
    return ⟨.addEdge id source target, ← evaluateAttributes attributes, .null, false, .null⟩
  | .removeEdge id => return ⟨.removeEdge (← evaluate id), .empty, .null, false, .null⟩
  | .setAttribute on id name value old => do
    let id ← evaluate id
    let name ← evaluate name
    let value ← evaluate value
    return ⟨.setAttribute on id name value, .empty, ← evaluateOr .null old, old.isSome, .null⟩
  | .removeAttribute on id name old => do
    let id ← evaluate id
    let name ← evaluate name
    return ⟨.removeAttribute on id name, .empty, ← evaluateOr .null old, old.isSome, .null⟩
  | .clear => return ⟨.clear, .empty, .null, false, .null⟩

/-- Make a change to a graph.  Only generators are told old values. -/
def changeGraph (host : Host) (g : GraphRef) (r : Requested) (as : Option String) :
    Run Answer := do
  if r.hasOld then throw .badArgument
  perform host g r.change r.attributes
  match r.change with
  | .addEdge id source target => answerView as ⟨g, id, source, target⟩
  | _ => answer r.added

/-- Make a change to whatever understands it: a graph makes it, a generator
announces it, and a tree can be cleared. -/
def changeObject (host : Host) (object : Object) (term : ChangeTerm) (as : Option String) :
    Run Answer := do
  match object, term with
  | .sink (.graph g), term => changeGraph host g (← requested term) as
  | .sink (.generator _), .clear => throw .noSuchOperation
  | .sink (.generator g), term => silently do
    let r ← requested term
    announce host g r.change r.attributes r.old
  | .tree t, .clear => silently (clearMarks host t)
  | _, _ => throw .noSuchOperation

/-! ## §4. Sinks. -/

/-- The emitter of an object that emits events. -/
def emitterOf : Object → Run Emitter
  | .sink (.graph g) => return (← World.graphObject g).emitter
  | .sink (.generator g) => return (← World.generator g).emitter
  | _ => throw .noSuchOperation

/-- Change the emitter of an object that emits events. -/
def modifyEmitter (object : Object) (f : Emitter → Emitter) : Run Unit :=
  match object with
  | .sink (.graph g) => modify fun w =>
    let cell := w.graphs.get g.index
    { w with graphs := w.graphs.set g.index { cell with emitter := f cell.emitter } }
  | .sink (.generator g) => World.modifyGenerator g fun x => { x with emitter := f x.emitter }
  | _ => throw .noSuchOperation

/-- Attach a sink; nothing can be attached to itself. -/
def attachSink (object : Object) (s : SinkRef) : Run Unit := do
  match object with
  | .sink own => if own = s then throw .ownSink
  | _ => pure ()
  modifyEmitter object (·.attach s)

/-- Hand an event to an object as if it came from a sender elsewhere. -/
def deliverTo (host : Host) (object : Object) (event : Option EventKind) (sender : Term)
    (arguments : List Term) : Run Unit := do
  match object, event with
  | .sink s, some kind =>
    let sender ← evaluate sender
    match Event.ofArguments? kind (← evaluateAll arguments) with
    | some event => deliver host s sender event
    | none => throw .badArgument
  | _, _ => throw .noSuchOperation

/-- Answer a request about the sinks of an object. -/
def askSinks (host : Host) (object : Object) : SinkRequest → Run Answer
  | .add name => silently do attachSink object (← sinkNamed name)
  | .remove name => silently do
    let s ← sinkNamed name
    modifyEmitter object (·.detach s)
  | .clear => silently (modifyEmitter object (·.detachAll))
  | .list => do
    let emitter ← emitterOf object
    answerNames (← emitter.sinks.mapM World.sinkLabel)
  | .deliver event sender arguments => silently (deliverTo host object event sender arguments)

/-! ## §5. Edge views. -/

/-- The end of an edge that faces a node. -/
def oppositeOf (e : EdgeView) (node : Value) : Except Error Value :=
  let facing (a b : Value) : Except Error Bool :=
    match Value.equals a b with
    | .ok same => .ok same
    | .error fault => .error (.comparison fault)
  do
    if ← facing node e.source then return e.target
    if ← facing node e.target then return e.source
    throw (.notAnEndpoint node e.id)

/-- Whether an edge equals a value, whether it differs, and whether both are
filed under one key, which is asked only of edges that are equal. -/
def compareEdge (e : EdgeView) (other : Value) : Except Error (List Value) :=
  match Value.equals e.toValue other with
  | .error fault => .error (.comparison fault)
  | .ok same =>
    let sameKey : Value := if same then .bool (e.toValue.key? == other.key?) else .null
    .ok [.bool same, .bool !same, sameKey]

/-- Answer a request to an edge view. -/
def askView (host : Host) (e : EdgeView) (request : ViewRequest) : Run Answer := do
  let graph ← World.graph e.graph
  match request with
  | .get name default => do
    let name ← evaluate name
    let default ← evaluateOr .null default
    answer (← Run.ofExcept (graph.readAttribute .edge e.id name default))
  | .set name value => silently do
    let name ← evaluate name
    let value ← evaluate value
    setOnView host e name value
  | .item name => do
    let name ← evaluate name
    let attributes ← Run.ofExcept (graph.edgeAttributes e.id)
    match attributes.get? (← Run.ofExcept (Graph.keyOf name)) with
    | some v => answer v
    | none => throw .missingKey
  | .contains name => do
    let name ← evaluate name
    let attributes ← Run.ofExcept (graph.edgeAttributes e.id)
    answer (.bool (attributes.contains (← Run.ofExcept (Graph.keyOf name))))
  | .opposite node => do answer (← Run.ofExcept (oppositeOf e (← evaluate node)))
  | .info => do answerList [e.id, e.source, e.target, .str (← labelOf e.graph)]
  | .equals other => do answerList (← Run.ofExcept (compareEdge e (← evaluate other)))
  | .attributes as => do
    let attributes ← Run.ofExcept (graph.edgeAttributes e.id)
    match as with
    | some name => World.bind name (.snapshot attributes)
    | none => pure ()
    return .attributes attributes
  | .weight name default => do
    let name ← evaluate name
    let default ← evaluateOr (.float .one) default
    match ← Run.ofExcept (graph.edgeWeight e.id name) with
    | some x => answer (.float x)
    | none => answer default

/-- Answer a request to a snapshot of attributes, which can only be read. -/
def askSnapshot (attributes : Attributes) : SnapshotRequest → Run Answer
  | .read => return .attributes attributes
  | .write => throw .readOnly

/-! ## §6. Iterators. -/

/-- What an object offers to go through. -/
def sourceOf (object : Object) (kind : IterationKind) (maxSteps : Option Term) :
    Run CursorSource := do
  match object, kind with
  | .sink (.graph g), .nodes => return .nodes g
  | .sink (.graph g), .edges => return .edges g
  | .tree t, .treeEdges => return .treeEdges t
  | .sink (.generator g), .steps =>
    return .run g (← Run.ofExcept (Limit.ofValue (← evaluateOr .null maxSteps)))
  | _, _ => throw .noSuchOperation

/-- Make an iterator. -/
def openCursor (source : CursorSource) : Run CursorRef := do
  let w ← get
  set { w with cursors := w.cursors.push ⟨source, .fresh⟩ }
  return ⟨w.cursors.size⟩

/-- Answer a request to an iterator. -/
def askCursor (host : Host) (c : CursorRef) : CursorRequest → Run Answer
  | .next => do
    match ← nextItem (hooksOf host) c with
    | some v => return .item v
    | none => return .stop
  | .drain => do answerList (← drainItems (hooksOf host) c host.patience)
  | .close => silently (closeCursor (hooksOf host) c)

/-! ## §7. Spanning trees. -/

/-- The ids of edges in the order of the graph that a tree works on; ids that
it does not know come last. -/
def inGraphOrder (t : TreeRef) (ids : List Value) : Run (List Value) := do
  match (← World.tree t).graph with
  | none => return ids
  | some g =>
    let graph ← World.graph g
    let place (id : Value) : Nat := (graph.edgePosition? id).getD graph.edges.size
    return ids.mergeSort fun a b => place a ≤ place b

/-- The ids of the edges that items stand for.  The order in which Prim's
algorithm finds edges is not told. -/
def idsOfItems (t : TreeRef) (sorted : Bool) (items : List TreeItem) : Run Answer := do
  let ids := (← resolveItems t items).map (·.id)
  answerList (← if sorted then inGraphOrder t ids else pure ids)

/-- The marked edges of a tree; none without a graph. -/
def markedOf (t : TreeRef) : Run (List EdgeView) := do
  let tree ← World.tree t
  match tree.graph with
  | none => return []
  | some g => Run.ofExcept (markedEdges tree g (← World.graph g))

/-- Answer a request to a spanning tree. -/
def askTree (host : Host) (t : TreeRef) : TreeRequest → Run Answer
  | .compute => silently (compute host t)
  | .resetFlags => silently (resetMarks host t)
  | .edgeOn edge => silently do markOn host t (← resolveEdge t (← evaluate edge))
  | .edgeOff edge => silently do markOff host t (← resolveEdge t (← evaluate edge))
  | .state => do
    let tree ← World.tree t
    let label ← match tree.graph with
      | some g => some <$> labelOf g
      | none => pure none
    return .treeState ⟨label, tree⟩
  | .assign property value => silently do assignProperty t property (← evaluate value)
  | .assignGraph name => silently do
    let graph ← match name with
      | some name => some <$> graphNamed name
      | none => pure none
    World.setTree t { ← World.tree t with graph }
  | .setFlagAttribute value => silently do assignProperty t .flagAttribute (← evaluate value)
  | .setFlagOn value => do answer (.bool (← assignFlagOn t (← evaluate value)))
  | .setFlagOff value => do answer (.bool (← assignFlagOff t (← evaluate value)))
  | .edges => do answerList ((← markedOf t).map (·.id))
  | .count => do answer (.int (← markedOf t).length)
  | .weight => do
    let tree ← World.tree t
    match tree.graph with
    | none => answer (.ofDouble .zero)
    | some g => answer (.ofDouble (← Run.ofExcept (markedWeight tree g (← World.graph g))))
  | .chosenBy algorithm => do
    idsOfItems t (algorithm = .prim) (← chosenItems t algorithm)
  | .built => do
    let tree ← World.tree t
    idsOfItems t (tree.strategy = .prim) (← treeItems host t)

/-! ## §8. Generators. -/

/-- Answer a request to a generator. -/
def askGenerator (host : Host) (g : GeneratorRef) : GeneratorRequest → Run Answer
  | .begin => silently (beginRun (hooksOf host g) g)
  | .pull => do answer (.bool (← pull (hooksOf host g) g))
  | .finish => silently (endRun (hooksOf host g) g)
  | .state => do
    let x ← World.generator g
    let labels ← x.emitter.sinks.mapM World.sinkLabel
    answerList [.str x.phase.name, .int x.stepCount, x.emitter.id, .list (labels.map .str)]
  | .generate sink maxSteps => do
    let sink ← match sink with
      | some name => some <$> sinkNamed name
      | none => pure none
    let limit ← Run.ofExcept (Limit.ofValue (← evaluateOr .null maxSteps))
    answer (.int (← generateInto (hooksOf host g) host.patience g sink limit))

end EvolvingGraph.Session
