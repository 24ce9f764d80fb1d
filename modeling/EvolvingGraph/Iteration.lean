/-
  EvolvingGraph.Iteration
  ───────────────────────
  **ITERATORS THAT STAY SAFE WHILE THE GRAPH CHANGES.**

  An iterator does nothing before it is first pulled.  Over nodes or edges it
  then takes down the ids that are there; an edge id whose edge is gone by the
  time it is reached is skipped, and one that is there is looked up at that
  time.  An iterator over the steps of a run begins the run at the first pull,
  and ends it when it is exhausted, fails, or is closed.  An error ends an
  iterator.
-/
import EvolvingGraph.Generation.Run
import EvolvingGraph.Marking.Tree

namespace EvolvingGraph

/-- What a pull gives: an item and the state afterwards, or nothing any more. -/
abbrev Pulled := Option (Value × CursorState)

/-! ## §1. Nodes and edges. -/

/-- The first edge among some ids that is still there and counts. -/
def pullListing (g : GraphRef) (counts : Graph → Value → Run Bool) :
    List Identifier → Run Pulled
  | [] => pure none
  | id :: rest => do
    let graph ← World.graph g
    if graph.edges.contains id.key then
      let e ← Run.ofExcept (graph.view g id.value)
      if ← counts graph e.id then return some (e.toValue, .edgesLeft g rest)
    pullListing g counts rest

/-- Every edge counts. -/
def everyEdge (_ : Graph) (_ : Value) : Run Bool := pure true

/-- An edge counts if the tree has marked it. -/
def markedEdge (t : TreeRef) (graph : Graph) (id : Value) : Run Bool := do
  let tree ← World.tree t
  Run.ofExcept (isMarked tree graph id)

/-- The next of some node ids. -/
def pullNodes : List Value → Pulled
  | [] => none
  | id :: rest => some (id, .nodesLeft rest)

/-! ## §2. Steps of a run. -/

/-- Pull the generator once more, if the limit allows. -/
def pullStep (hooks : Hooks) (g : GeneratorRef) (limit : Limit) (calls : Nat) : Run Pulled := do
  if limit.allows calls then
    if ← pull hooks g then
      return some (.int (calls + 1 : Nat), .paused (calls + 1))
    else return none
  else return none

/-- The next step of a run, which is ended when there is none, and on failure. -/
def continueRun (hooks : Hooks) (g : GeneratorRef) (limit : Limit) (calls : Nat) :
    Run Pulled := do
  match ← Run.attempt (pullStep hooks g limit calls) with
  | .ok (some pulled) => return some pulled
  | .ok none => endRun hooks g; return none
  | .error e => endRun hooks g; throw e

/-! ## §3. Pulling and closing. -/

/-- What comes of pulling an iterator that is not in the middle of a pull. -/
def pullFrom (hooksOf : GeneratorRef → Hooks) (source : CursorSource) (state : CursorState) :
    Run Pulled := do
  match source, state with
  | .nodes g, .fresh =>
    return pullNodes ((← World.graph g).nodes.identifiers.map (·.value))
  | .edges g, .fresh => do
    pullListing g everyEdge (← World.graph g).edges.identifiers
  | .treeEdges t, .fresh => do
    match (← World.tree t).graph with
    | none => return none
    | some g => pullListing g (markedEdge t) (← World.graph g).edges.identifiers
  | .run g limit, .fresh => do
    beginRun (hooksOf g) g
    continueRun (hooksOf g) g limit 0
  | .treeEdges t, .edgesLeft g ids => pullListing g (markedEdge t) ids
  | _, .edgesLeft g ids => pullListing g everyEdge ids
  | _, .nodesLeft ids => return pullNodes ids
  | .run g limit, .paused calls => continueRun (hooksOf g) g limit calls
  | _, _ => return none

/-- Do something in the middle of which the iterator is busy; afterwards it is
finished unless it has another state to go on with. -/
def whileBusy (c : CursorRef) (operation : Run Pulled) : Run (Option Value) := do
  World.setCursor c .busy
  match ← Run.attempt operation with
  | .ok (some (v, state)) => World.setCursor c state; return some v
  | .ok none => World.setCursor c .finished; return none
  | .error e => World.setCursor c .finished; throw e

/-- Pull an iterator: its next item, or nothing any more. -/
def nextItem (hooksOf : GeneratorRef → Hooks) (c : CursorRef) : Run (Option Value) := do
  let cursor ← World.cursor c
  match cursor.state with
  | .busy => throw .iteratorBusy
  | .finished => return none
  | state => whileBusy c (pullFrom hooksOf cursor.source state)

/-- Pull an iterator until it is finished, `fuel` times at most. -/
def drainItems (hooksOf : GeneratorRef → Hooks) (c : CursorRef) : (fuel : Nat) → Run (List Value)
  | 0 => throw .nestingTooDeep
  | fuel + 1 => do
    match ← nextItem hooksOf c with
    | none => return []
    | some v => return v :: (← drainItems hooksOf c fuel)

/-- Close an iterator: a run that it has begun is ended. -/
def closeCursor (hooksOf : GeneratorRef → Hooks) (c : CursorRef) : Run Unit := do
  let cursor ← World.cursor c
  match cursor.source, cursor.state with
  | _, .busy => throw .iteratorBusy
  | .run g _, .paused _ =>
    discard (whileBusy c do
      endRun (hooksOf g) g
      return none)
  | _, _ => World.setCursor c .finished

end EvolvingGraph
