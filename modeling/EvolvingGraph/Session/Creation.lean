/-
  EvolvingGraph.Session.Creation
  ──────────────────────────────
  **MAKING THE OBJECTS OF A SESSION.**

  An object is made first and given its name afterwards, so a name keeps what
  it referred to when making its new object fails.  A graph or generator that
  is given no id gets one that tells nothing but what it is.
-/
import EvolvingGraph.Session.Requests

namespace EvolvingGraph.Session

/-! ## §1. Graphs, sinks and generators. -/

/-- The id of an emitter: the one that is given, or one of its own. -/
def emitterId (own : String) (id : Value) : Value := if id.isNull then .str own else id

/-- Give a graph a place and a name. -/
def placeGraph (as : String) (id : Value) (graph : Graph) : Run Unit := do
  let w ← get
  set { w with graphs := w.graphs.push ⟨as, ⟨emitterId "Graph@*" id, []⟩, graph⟩ }
  World.bind as (.sink (.graph ⟨w.graphs.size⟩))

/-- Make a recorder with its reactions. -/
def placeRecorder (as : String) (reactions : List (Reaction Step)) : Run Unit := do
  let w ← get
  set { w with recorders := w.recorders.push ⟨as, reactions⟩ }
  World.bind as (.sink (.recorder w.recorders.size))

/-- Make a sink that ignores everything. -/
def placeSilent (as : String) : Run Unit := do
  let w ← get
  set { w with silents := w.silents.push as }
  World.bind as (.sink (.silent w.silents.size))

/-- Make a generator that plays a script. -/
def placeGenerator (as : String) (id : Value) (script : GenerationScript Step) : Run Unit := do
  let w ← get
  let emitter : Emitter := ⟨emitterId "ScriptGenerator@*" id, []⟩
  set { w with generators := w.generators.push ⟨as, emitter, script, 0, .notStarted, 0⟩ }
  World.bind as (.sink (.generator ⟨w.generators.size⟩))

/-- Make an iterator. -/
def placeCursor (as : String) (source : CursorSource) : Run Unit := do
  let c ← openCursor source
  World.bind as (.cursor c)

/-! ## §2. Spanning trees. -/

/-- The settings that terms give, the standard ones where they say nothing. -/
def settingsOf (s : TreeSettings) : Run Settings := do
  let standard := Settings.standard
  return {
    flagAttribute := ← evaluateOr standard.flagAttribute s.flagAttribute
    flagOn := ← evaluateOr standard.flagOn s.flagOn
    flagOff := ← evaluateOr standard.flagOff s.flagOff
    strategy := ← evaluateOr standard.strategy s.strategy
    weightName := ← evaluateOr standard.weightName s.weightAttribute
    mode := ← evaluateOr standard.mode s.mode }

/-- The settings of a tree: a complete configuration, where there is one,
leaves no room for others. -/
def chosenSettings (settings : TreeSettings) (config : Option ConfigTerm) : Run Settings := do
  match config with
  | none => settingsOf settings
  | some c =>
    if c.hasUnknownField then throw .badArgument
    settingsOf c.settings

/-- Make a spanning tree. -/
def placeTree (as : String) (graph : Option String) (settings : TreeSettings)
    (config : Option ConfigTerm) (builder : Option (Builder Step)) : Run Unit := do
  let g ← match graph with
    | some name => some <$> graphNamed name
    | none => pure none
  let chosen ← chosenSettings settings config
  let offered ← offer builder
  let tree ← Run.ofExcept (SpanningTree.make g chosen offered)
  let w ← get
  set { w with trees := w.trees.push tree }
  World.bind as (.tree ⟨w.trees.size⟩)

/-! ## §3. Imported graphs. -/

/-- An array from its term. -/
def arrayOf : ArrayTerm → Run DenseArray
  | .zeros shape => pure (.zeros shape)
  | .nested v => do Run.ofExcept (DenseArray.ofValue (← evaluate v))

/-- The entry of a sparse matrix from its term; it has to lie inside the shape. -/
def entryOf (rows columns : Nat) (entry : Int × Int × Term) : Run MatrixEntry := do
  let (i, j, term) := entry
  let value ← Run.ofExcept (Value.convert (← evaluate term))
  if i < 0 || rows ≤ i || j < 0 || columns ≤ j then throw .shapesDiffer
  return ⟨i.toNat, j.toNat, value⟩

/-- How a matrix is read, from what the terms say.  Loops can be dealt with
only by a graph's own constructor. -/
def readingOf (ownConstructor : Bool) (options : MatrixOptions) : Run MatrixReading := do
  if !ownConstructor && options.ignoresLoops.isSome then throw .badArgument
  let standard := MatrixReading.standard
  return {
    directed := options.directed.getD standard.directed
    weighted := options.weighted.getD standard.weighted
    symmetrisation := ← evaluateOr standard.symmetrisation options.symmetrisation
    ignoresLoops := options.ignoresLoops.getD standard.ignoresLoops
    weightName := ← evaluateOr standard.weightName options.weightName }

/-- The graph of a matrix term. -/
def graphOfMatrix (matrix : MatrixTerm) (reading : MatrixReading) : Run Graph := do
  match matrix with
  | .array term => do Run.ofExcept (Graph.ofFlat (← arrayOf term) reading)
  | .entries (rows, columns) terms => do
    let entries ← terms.mapM (entryOf rows columns)
    Run.ofExcept (Graph.ofMatrix (.ofEntries ⟨rows, columns, entries⟩) reading)

/-- The graph of a network term. -/
def graphOfNetwork : NetworkTerm → Run Graph
  | .ofGraph name => do
    let graph ← World.graph (← graphNamed name)
    Run.ofExcept (Graph.ofNetwork graph.toNetwork false)
  | .lists directed multigraph nodes links => do
    let nodes ← nodes.mapM fun (id, attributes) =>
      return (← evaluate id, ← evaluatePairs attributes)
    let links ← links.mapM fun (source, target, attributes) =>
      return (← evaluate source, ← evaluate target, ← evaluatePairs attributes)
    let network ← Run.ofExcept (Network.ofLists directed nodes links)
    Run.ofExcept (Graph.ofNetwork network multigraph)

/-- The number of cells for which a table may need NaNs of its own. -/
def cellCount (columns : List (Value × Value)) : Nat :=
  columns.foldl (fun count (_, cells) => match cells with
    | .list items => count + items.length
    | _ => count) 0

/-- The table of a table term. -/
def tableOf : TableTerm → Run Table
  | .ofGraph name => do
    let graph ← World.graph (← graphNamed name)
    let table ← Run.ofExcept (graph.table 0)
    let firstMark ← World.reserveMarks (table.height * table.columns.length)
    Run.ofExcept (graph.table firstMark)
  | .columns terms => do
    let columns ← terms.mapM fun (name, cells) => return (← evaluate name, ← evaluate cells)
    let firstMark ← World.reserveMarks (cellCount columns)
    Run.ofExcept (Table.ofColumns firstMark columns)

/-- How a table is read, from what the terms say. -/
def tableReadingOf (options : TableOptions) : Run TableReading := do
  let standard := TableReading.standard
  return {
    directed := options.directed.getD standard.directed
    source := ← evaluateOr standard.source options.source
    target := ← evaluateOr standard.target options.target
    edgeId := ← evaluateOr standard.edgeId options.edgeId }

/-- The graph that an import term describes. -/
def importedGraph : ImportTerm → Run Graph
  | .dense ownConstructor array options => do
    let reading ← readingOf ownConstructor options
    Run.ofExcept (Graph.ofDense (← arrayOf array) reading)
  | .sparse ownConstructor matrix options => do
    let reading ← readingOf ownConstructor options
    graphOfMatrix matrix reading
  | .network network => graphOfNetwork network
  | .table table options => do
    let table ← tableOf table
    let reading ← tableReadingOf options
    Run.ofExcept (Graph.ofTable table reading)

/-- Import a graph. -/
def placeImport (as : String) (id : Term) (source : ImportTerm) : Run Unit := do
  let id ← evaluate id
  let graph ← importedGraph source
  placeGraph as id graph

end EvolvingGraph.Session
