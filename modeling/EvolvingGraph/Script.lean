/-
  EvolvingGraph.Script
  ────────────────────
  **SCRIPTS: WHAT A SESSION IS ASKED TO DO, AS DATA.**

  A session is a list of steps.  A step makes an object, changes a graph, or
  asks an object something; objects are known by name.  Some objects hold steps
  of their own, which are played later: the reactions of a recorder, the parts
  of a generation script, and what a tree builder does before it answers.

  The values of a step are written as terms, because a term may also refer to a
  named edge view, and because each NaN that is written is an object of its own.
-/
import EvolvingGraph.Event
import EvolvingGraph.Forest.Selection

namespace EvolvingGraph

/-! ## §1. Terms. -/

/-- A value as it is written in a step. -/
inductive Term where
  | value (v : Value)
  | nan
  | reference (name : String)
  | tuple (items : List Term)
  | list (items : List Term)

instance : Inhabited Term := ⟨.value .null⟩

/-- Attributes as they are written in a step. -/
abbrev AttributeTerms := List (Term × Term)

/-! ## §2. Things that hold steps. -/

/-- Steps that a recorder plays once, at the next event of a kind. -/
structure Reaction (σ : Type) where
  event : EventKind
  steps : List σ

/-- One entry of a generation script: what it does, and whether more is to come. -/
structure ScriptEntry (σ : Type) where
  actions : List σ
  more : Term
  deriving Inhabited

/-- What a generator does when a run begins, at each step, and when it ends;
past its entries it answers `tail`. -/
structure GenerationScript (σ : Type) where
  opening : List σ
  entries : List (ScriptEntry σ)
  closing : List σ
  tail : Term
  deriving Inhabited

/-- What a tree builder answers. -/
inductive BuilderKind where
  /-- A value given in advance. -/
  | answer (v : Term)
  /-- The views of the edges with the given ids. -/
  | views (ids : List Term)
  /-- The edges whose source equals a node, found one at a time. -/
  | fromSource (node : Term)
  /-- The ids of the edges that have an attribute. -/
  | having (name : Term)
  /-- What Kruskal's algorithm chooses. -/
  | kruskal
  /-- No builder at all, but some value. -/
  | notCallable (v : Term)

/-- A tree builder: the steps that it plays when it is called, and its answer. -/
structure Builder (σ : Type) where
  steps : List σ
  kind : BuilderKind

/-! ## §3. Requests to objects. -/

/-- A change as it is written in a step.  What a generator knows of the old
value of an attribute may be given along. -/
inductive ChangeTerm where
  | addNode (id : Term) (attributes : AttributeTerms)
  | removeNode (id : Term)
  | addEdge (id source target : Term) (attributes : AttributeTerms)
  | removeEdge (id : Term)
  | setAttribute (on : ElementKind) (id name value : Term) (old : Option Term)
  | removeAttribute (on : ElementKind) (id name : Term) (old : Option Term)
  | clear

/-- Questions to a graph. -/
inductive GraphRequest where
  | hasNode (id : Term)
  | containsNode (id : Term)
  | nodes
  | attributeValue (on : ElementKind) (id name : Term) (default : Option Term)
  | hasEdge (id : Term)
  | edge (id : Term) (as : Option String)
  | edges
  | info
  | dump
  | isConnected
  | adjacency (weight : Option Term)
  | network
  | table

/-- Requests about the sinks of a graph or a generator. -/
inductive SinkRequest where
  | add (sink : String)
  | remove (sink : String)
  | clear
  | list
  /-- Hand an event to the object itself, as if it came from a sender elsewhere. -/
  | deliver (event : Option EventKind) (sender : Term) (arguments : List Term)

/-- Requests to an edge view. -/
inductive ViewRequest where
  | get (name : Term) (default : Option Term)
  | set (name value : Term)
  | item (name : Term)
  | contains (name : Term)
  | opposite (node : Term)
  | info
  | equals (other : Term)
  | attributes (as : Option String)
  | weight (name : Term) (default : Option Term)

/-- Requests to a snapshot of attributes. -/
inductive SnapshotRequest where
  | read
  | write

/-- What an iterator goes through. -/
inductive IterationKind where
  | nodes
  | edges
  | treeEdges
  | steps
  deriving DecidableEq, Repr

/-- Requests to an iterator. -/
inductive CursorRequest where
  | next
  | drain
  | close

/-- The properties of a tree that can be assigned a value. -/
inductive TreeProperty where
  | strategy
  | mode
  | flagOn
  | flagOff
  | flagAttribute
  | weightAttribute
  deriving DecidableEq, Repr

/-- Requests to a spanning tree. -/
inductive TreeRequest where
  | compute
  | resetFlags
  | edgeOn (edge : Term)
  | edgeOff (edge : Term)
  | state
  | assign (property : TreeProperty) (value : Term)
  | assignGraph (name : Option String)
  | setFlagAttribute (value : Term)
  | setFlagOn (value : Term)
  | setFlagOff (value : Term)
  | edges
  | count
  | weight
  | chosenBy (algorithm : Algorithm)
  | built

/-- Requests to a generator. -/
inductive GeneratorRequest where
  | begin
  | pull
  | finish
  | state
  | generate (sink : Option String) (maxSteps : Option Term)

/-! ## §4. Making objects. -/

/-- The settings of a tree, as far as they are given. -/
structure TreeSettings where
  flagAttribute : Option Term
  flagOn : Option Term
  flagOff : Option Term
  strategy : Option Term
  weightAttribute : Option Term
  mode : Option Term

/-- A complete configuration given as a list of fields. -/
structure ConfigTerm where
  settings : TreeSettings
  hasUnknownField : Bool

/-- An array as it is written in a step. -/
inductive ArrayTerm where
  | nested (v : Term)
  | zeros (shape : List Nat)

/-- A matrix as it is written in a step: an array, or entries and a shape. -/
inductive MatrixTerm where
  | array (a : ArrayTerm)
  | entries (shape : Nat × Nat) (entries : List (Int × Int × Term))

/-- How a matrix is to be read, as far as that is given. -/
structure MatrixOptions where
  directed : Option Bool
  weighted : Option Bool
  symmetrisation : Option Term
  ignoresLoops : Option Bool
  weightName : Option Term

/-- A network as it is written in a step, or that of a graph. -/
inductive NetworkTerm where
  | lists (directed multigraph : Bool) (nodes : List (Term × AttributeTerms))
      (links : List (Term × Term × AttributeTerms))
  | ofGraph (name : String)

/-- A table as it is written in a step, or that of a graph. -/
inductive TableTerm where
  | columns (columns : List (Term × Term))
  | ofGraph (name : String)

/-- How a table is to be read, as far as that is given. -/
structure TableOptions where
  source : Option Term
  target : Option Term
  edgeId : Option Term
  directed : Option Bool

/-- What a graph is made from.  Loops can be ignored or kept only where a
matrix is read by the graph's own constructor. -/
inductive ImportTerm where
  | dense (ownConstructor : Bool) (array : ArrayTerm) (options : MatrixOptions)
  | sparse (ownConstructor : Bool) (matrix : MatrixTerm) (options : MatrixOptions)
  | network (network : NetworkTerm)
  | table (table : TableTerm) (options : TableOptions)

/-! ## §5. Steps. -/

/-- One step of a session.  A step of a generation script that names no object
is meant for the generator itself. -/
inductive Step where
  | newGraph (as : String) (id : Term) (directed : Bool)
  | newRecorder (as : String) (reactions : List (Reaction Step))
  | newSink (as : String)
  | newGenerator (as : String) (id : Term) (script : GenerationScript Step)
  | newTree (as : String) (graph : Option String) (settings : TreeSettings)
      (config : Option ConfigTerm) (builder : Option (Builder Step))
  | newIterator (on : Option String) (kind : IterationKind) (as : String)
      (maxSteps : Option Term)
  | newImport (as : String) (id : Term) (source : ImportTerm)
  | change (on : Option String) (change : ChangeTerm) (as : Option String)
  | describe (on : Option String)
  | graph (on : Option String) (request : GraphRequest)
  | sinks (on : Option String) (request : SinkRequest)
  | view (on : Option String) (request : ViewRequest)
  | snapshot (on : Option String) (request : SnapshotRequest)
  | cursor (on : Option String) (request : CursorRequest)
  | tree (on : Option String) (request : TreeRequest)
  | assignBuilder (on : Option String) (builder : Option (Builder Step))
  | generator (on : Option String) (request : GeneratorRequest)
  | buildFromStrategy (strategy : Term)
  | checkSquare (array : ArrayTerm)
  | symmetrise (array : ArrayTerm) (way : Option Term)
  | lineage (kind : ErrorKind)
  | fail (message : String)
  /-- A step that no object understands. -/
  | unknown

instance : Inhabited Step := ⟨.unknown⟩

end EvolvingGraph
