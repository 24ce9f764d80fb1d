/-
  EvolvingGraph.Session.Player
  ────────────────────────────
  **PLAYING A SESSION.**

  A session plays its steps one after the other in one world.  A step that
  fails does not stop the session.  Steps can cause other steps — a recorder
  reacts, a generator plays its script, a builder prepares its answer — and
  these run while the first one is still under way; how deep that can go is
  bounded (`hostOfDepth`).

  Main statement: `play_length` — a session reports each of its steps.
-/
import EvolvingGraph.Session.Creation

namespace EvolvingGraph.Session

/-! ## §1. One step. -/

/-- One line about an object that can be described. -/
def describeObject : Object → Run String
  | .sink (.graph g) => do
    let object ← World.graphObject g
    return object.graph.describe object.emitter.id
  | .view e => return e.toValue.inspect
  | .tree t => return (← World.tree t).describe
  | _ => throw .noSuchOperation

/-- Find the symmetric form of an array that is read as a matrix. -/
def symmetrisedRows (array : DenseArray) (way : Value) : Except Error (List (List Double)) := do
  let way ← DenseMatrix.Symmetrisation.ofValue way
  match DenseMatrix.ofFlatArray? array with
  | none => throw .badArgument
  | some m => if m.isSquare then return (m.symmetrised way).toRows else throw .shapesDiffer

/-- Play one step on behalf of an object, if there is one. -/
def playStep (host : Host) (self : Option Object) : Step → Run Answer
  | .newGraph as id directed => silently do
    placeGraph as (← evaluate id) (.empty directed)
  | .newRecorder as reactions => silently (placeRecorder as reactions)
  | .newSink as => silently (placeSilent as)
  | .newGenerator as id script => silently do placeGenerator as (← evaluate id) script
  | .newTree as graph settings config builder =>
    silently (placeTree as graph settings config builder)
  | .newIterator on kind as maxSteps => silently do
    let object ← addressee self on
    placeCursor as (← sourceOf object kind maxSteps)
  | .newImport as id source => silently (placeImport as id source)
  | .change on term as => do changeObject host (← addressee self on) term as
  | .describe on => do answer (.str (← describeObject (← addressee self on)))
  | .graph on request => do
    match ← addressee self on with
    | .sink (.graph g) => askGraph g request
    | _ => throw .noSuchOperation
  | .sinks on request => do askSinks host (← addressee self on) request
  | .view on request => do
    match ← addressee self on with
    | .view e => askView host e request
    | _ => throw .noSuchOperation
  | .snapshot on request => do
    match ← addressee self on with
    | .snapshot attributes => askSnapshot attributes request
    | _ => throw .noSuchOperation
  | .cursor on request => do
    match ← addressee self on with
    | .cursor c => askCursor host c request
    | _ => throw .noSuchOperation
  | .tree on request => do
    match ← addressee self on with
    | .tree t => askTree host t request
    | _ => throw .noSuchOperation
  | .assignBuilder on builder => silently do
    match ← addressee self on with
    | .tree t =>
      let offered ← offer builder
      World.setTree t (← Run.ofExcept ((← World.tree t).setBuilder offered))
    | _ => throw .noSuchOperation
  | .generator on request => do
    match ← addressee self on with
    | .sink (.generator g) => askGenerator host g request
    | _ => throw .noSuchOperation
  | .buildFromStrategy strategy => do throw (.unsupportedStrategy (← evaluate strategy))
  | .checkSquare array => silently do
    match DenseMatrix.ofArray? (← arrayOf array) with
    | some m => if m.isSquare then pure () else throw .notSquare
    | none => throw .notSquare
  | .symmetrise array way => do
    let array ← arrayOf array
    let way ← evaluateOr MatrixReading.standard.symmetrisation way
    return .dense (← Run.ofExcept (symmetrisedRows array way))
  | .lineage kind => return .kinds kind.lineage
  | .fail message => throw (.scripted message)
  | .unknown => throw .noSuchOperation

/-! ## §2. Steps caused by steps. -/

/-- Play steps, until one fails. -/
def playAll (host : Host) (self : Option Object) (steps : List Step) : Run Unit :=
  steps.forM fun step => discard (playStep host self step)

/-- The number of steps that a run without a bound is given. -/
def standardPatience : Nat := 100000

/-- The host under which steps can cause others to the given depth. -/
def hostOfDepth : (depth : Nat) → Host
  | 0 =>
    { notify := fun _ _ _ => throw .nestingTooDeep
      play := fun _ _ => throw .nestingTooDeep
      patience := standardPatience }
  | depth + 1 =>
    { notify := fun s sender event => deliver (hostOfDepth depth) s sender event
      play := fun self steps => playAll (hostOfDepth depth) self steps
      patience := standardPatience }

/-- The host of a session. -/
def standardHost : Host := hostOfDepth 400

/-! ## §3. Whole sessions. -/

/-- The tree that a step computes by Prim's algorithm, with its graph. -/
def primComputation? (w : World) : Step → Option Graph
  | .tree (some name) .compute =>
    match w.bindings.lookup name with
    | some (.tree t) =>
      let tree := w.trees.get t.index
      if tree.strategy = .prim then tree.graph.map fun g => (w.graphs.get g.index).graph
      else none
    | _ => none
  | _ => none

/-- Events about edges in the order of the edges; the order in which Prim's
algorithm finds edges is not told. -/
def sortReceipts (graph : Graph) (received : List Receipt) : List Receipt :=
  let place (r : Receipt) : Nat :=
    (r.event.edgeId?.bind graph.edgePosition?).getD graph.edges.size
  received.mergeSort fun r s => place r ≤ place s

/-- Play one step of a session and report it. -/
def report (w : World) (step : Step) : Report × World :=
  let (result, after) := (playStep standardHost none step).exec { w with received := [], log := [] }
  let received := match primComputation? w step with
    | some graph => sortReceipts graph after.received
    | none => after.received
  (⟨result, received, after.log⟩, after)

/-- Play steps in a world and report each of them. -/
def playFrom (w : World) : List Step → List Report
  | [] => []
  | step :: rest =>
    let (r, after) := report w step
    r :: playFrom after rest

/-- Play a session. -/
def play (steps : List Step) : List Report := playFrom .initial steps

theorem playFrom_length (w : World) (steps : List Step) :
    (playFrom w steps).length = steps.length := by
  induction steps generalizing w with
  | nil => rfl
  | cons step rest ih => simp [playFrom, ih]

theorem play_length (steps : List Step) : (play steps).length = steps.length :=
  playFrom_length _ steps

end EvolvingGraph.Session
