/-
  EvolvingGraph.World
  ───────────────────
  **THE OBJECTS OF A SESSION, AND OPERATIONS THAT CAN FAIL HALFWAY.**

  A session has graphs, generators, spanning trees, iterators, and sinks that
  events are sent to.  Graphs and generators emit events: each has an id that
  its events carry and a list of attached sinks, in the order of attachment.
  The `World` holds all objects, what their names refer to, the events that
  recorders received and the lines that were logged.

  An operation (`Run`) reads and changes the world and may fail; what it changed
  before it failed stays changed.

  Main statements:
    * `Heap.get_set_self`, `Heap.get_set_of_ne` — cells do not disturb each other;
    * `Run.exec_bind` and its companions — what an operation does in a world, step by step.
-/
import EvolvingGraph.Marking.Configuration
import EvolvingGraph.Script

namespace EvolvingGraph

/-! ## §1. Cells. -/

/-- Objects of one type, found by their number. -/
structure Heap (α : Type) where
  cells : List α

namespace Heap

variable {α : Type}

def empty : Heap α := ⟨[]⟩

/-- The object with a number; a fresh one where there is none. -/
def get [Inhabited α] (h : Heap α) (i : Nat) : α := h.cells.getD i default

/-- Put an object in the place of another one. -/
def set (h : Heap α) (i : Nat) (a : α) : Heap α := ⟨h.cells.set i a⟩

/-- The number of the next object. -/
def size (h : Heap α) : Nat := h.cells.length

/-- Add an object. -/
def push (h : Heap α) (a : α) : Heap α := ⟨h.cells ++ [a]⟩

theorem get_set_self [Inhabited α] {h : Heap α} {i : Nat} (hi : i < h.size) (a : α) :
    (h.set i a).get i = a := by
  simp only [size] at hi
  simp [get, set, List.getD, hi]

theorem get_set_of_ne [Inhabited α] {h : Heap α} {i j : Nat} (hij : i ≠ j) (a : α) :
    (h.set i a).get j = h.get j := by
  simp [get, set, List.getD, hij]

end Heap

/-! ## §2. Objects. -/

/-- A reference to one of the generators. -/
structure GeneratorRef where
  index : Nat
  deriving DecidableEq, Repr

/-- Something that can be attached to receive events. -/
inductive SinkRef where
  | graph (g : GraphRef)
  | recorder (index : Nat)
  /-- A sink that ignores everything. -/
  | silent (index : Nat)
  /-- A generator can be attached, but it has no use for events and fails. -/
  | generator (g : GeneratorRef)
  deriving DecidableEq, Repr

/-- Something that emits events: the id they carry, and the attached sinks. -/
structure Emitter where
  id : Value
  sinks : List SinkRef

instance : Inhabited Emitter := ⟨⟨.null, []⟩⟩

/-- A graph with its emitter.  The label is the name it was made under. -/
structure GraphObject where
  label : String
  emitter : Emitter
  graph : Graph
  deriving Inhabited

/-- A sink that writes down the events it receives, and reacts to some of them. -/
structure Recorder where
  label : String
  reactions : List (Reaction Step)
  deriving Inhabited

/-- Where a generator is in its life. -/
inductive Phase where
  | notStarted
  | running
  | exhausted
  | ended
  deriving DecidableEq, Repr, Inhabited

/-- The word for a phase. -/
def Phase.name : Phase → String
  | .notStarted => "not_started"
  | .running => "running"
  | .exhausted => "exhausted"
  | .ended => "ended"

/-- A generator: its emitter, what it plays, and how far it has come. -/
structure Generator where
  label : String
  emitter : Emitter
  script : GenerationScript Step
  position : Nat
  phase : Phase
  stepCount : Nat

instance : Inhabited Generator := ⟨⟨"", default, ⟨[], [], [], .value .null⟩, 0, .notStarted, 0⟩⟩

/-- A spanning tree whose builders play steps. -/
abbrev Tree := SpanningTree (Builder Step)

/-- A reference to one of the spanning trees. -/
structure TreeRef where
  index : Nat
  deriving DecidableEq, Repr

/-- What an iterator goes through. -/
inductive CursorSource where
  | nodes (g : GraphRef)
  | edges (g : GraphRef)
  | treeEdges (t : TreeRef)
  | run (generator : GeneratorRef) (limit : Limit)

/-- How far an iterator has come.  Nothing is looked at before it is first pulled. -/
inductive CursorState where
  | fresh
  /-- Node ids that are still to come. -/
  | nodesLeft (ids : List Value)
  /-- Edge ids of a graph that are still to be looked up. -/
  | edgesLeft (g : GraphRef) (ids : List Identifier)
  /-- A run that stands between two calls. -/
  | paused (calls : Nat)
  /-- In the middle of a pull. -/
  | busy
  | finished

/-- An iterator. -/
structure Cursor where
  source : CursorSource
  state : CursorState

instance : Inhabited Cursor := ⟨⟨.nodes default, .finished⟩⟩

/-- A reference to one of the iterators. -/
structure CursorRef where
  index : Nat
  deriving DecidableEq, Repr

/-- What a name can refer to. -/
inductive Object where
  | sink (s : SinkRef)
  | tree (t : TreeRef)
  | cursor (c : CursorRef)
  | view (e : EdgeView)
  | snapshot (attributes : Attributes)

/-! ## §3. What is written down. -/

/-- An event as a recorder received it. -/
structure Receipt where
  recorder : String
  sender : Value
  event : Event

/-- A line of the log. -/
inductive LogEntry where
  | nothingToCompute
  | computing (strategy : Strategy) (mode : Forest.Mode) (graph : String)
  | computed (marked total : Nat)
  | ignoredFlagOn (value : Value)
  | ignoredFlagOff (value : Value)
  | runBegun (id : Value)
  | runEnded (id : Value) (steps : Nat)

/-- How important a line is. -/
inductive LogLevel where
  | debug
  | warning
  deriving DecidableEq, Repr

/-- Which part of the library a line comes from. -/
inductive LogChannel where
  | marking
  | generation
  deriving DecidableEq, Repr

namespace LogEntry

def level : LogEntry → LogLevel
  | .ignoredFlagOn _ | .ignoredFlagOff _ => .warning
  | _ => .debug

def channel : LogEntry → LogChannel
  | .runBegun _ | .runEnded .. => .generation
  | _ => .marking

/-- The text of a line. -/
def text : LogEntry → String
  | .nothingToCompute => "No graph set, nothing to compute."
  | .computing strategy mode graph =>
    "Computing " ++ strategy.name ++ " spanning tree (" ++ mode.name ++ ") on " ++ graph ++ "."
  | .computed marked total =>
    "Spanning tree done: " ++ toString marked ++ " of " ++ toString total ++ " edges flagged on."
  | .ignoredFlagOn value => "Ignoring flag_on=" ++ value.inspect ++ ": equal to flag_off."
  | .ignoredFlagOff value => "Ignoring flag_off=" ++ value.inspect ++ ": equal to flag_on."
  | .runBegun id => id.display ++ ": begin."
  | .runEnded id steps => id.display ++ ": end after " ++ toString steps ++ " step(s)."

end LogEntry

/-! ## §4. The world. -/

/-- Everything that a session holds. -/
structure World where
  graphs : Heap GraphObject
  recorders : Heap Recorder
  silents : Heap String
  generators : Heap Generator
  trees : Heap Tree
  cursors : Heap Cursor
  /-- What names refer to, the latest first. -/
  bindings : List (String × Object)
  /-- The mark of the next NaN that is written. -/
  nextMark : Nat
  received : List Receipt
  log : List LogEntry

/-- The world at the beginning of a session. -/
def World.initial : World where
  graphs := .empty
  recorders := .empty
  silents := .empty
  generators := .empty
  trees := .empty
  cursors := .empty
  bindings := []
  nextMark := 1
  received := []
  log := []

/-- An operation on the world that may fail. -/
abbrev Run := ExceptT Error (StateM World)

namespace Run

variable {α β : Type}

/-- Do an operation in a world: what comes of it, and the world afterwards. -/
def exec (operation : Run α) (w : World) : Except Error α × World := operation.run.run w

@[simp] theorem exec_pure (a : α) (w : World) : exec (pure a) w = (.ok a, w) := rfl

@[simp] theorem exec_throw (e : Error) (w : World) :
    exec (throw e : Run α) w = (.error e, w) := rfl

@[simp] theorem exec_get (w : World) : exec get w = (.ok w, w) := rfl

@[simp] theorem exec_set (w w' : World) : exec (set w') w = (.ok ⟨⟩, w') := rfl

@[simp] theorem exec_modify (f : World → World) (w : World) :
    exec (modify f) w = (.ok ⟨⟩, f w) := rfl

@[simp] theorem exec_bind (operation : Run α) (f : α → Run β) (w : World) :
    exec (operation >>= f) w = match exec operation w with
      | (.ok a, w') => exec (f a) w'
      | (.error e, w') => (.error e, w') := by
  change (match operation w with | (result, w') => ExceptT.bindCont f result w')
    = match operation w with
      | (.ok a, w') => f a w'
      | (.error e, w') => (.error e, w')
  rcases operation w with ⟨_ | _, _⟩ <;> rfl

/-- Do something and see what comes of it, failure included. -/
def attempt (operation : Run α) : Run (Except Error α) :=
  ExceptT.mk do
    let result ← operation.run
    return .ok result

@[simp] theorem exec_attempt (operation : Run α) (w : World) :
    exec (attempt operation) w = (.ok (exec operation w).1, (exec operation w).2) := rfl

/-- The result of something that may have failed already. -/
def ofExcept : Except Error α → Run α
  | .ok a => pure a
  | .error e => throw e

@[simp] theorem exec_ofExcept (result : Except Error α) (w : World) :
    exec (ofExcept result) w = (result, w) := by cases result <;> rfl

/-- Do something, and something else afterwards in any case.  A failure of what
is done afterwards counts more. -/
def ensuring (operation : Run α) (afterwards : Run Unit) : Run α := do
  let result ← attempt operation
  afterwards
  ofExcept result

end Run

/-! ## §5. Reading and changing objects. -/

namespace World

def graphObject (g : GraphRef) : Run GraphObject := do
  return (← get).graphs.get g.index

/-- The graph at a reference, as it is now. -/
def graph (g : GraphRef) : Run Graph := do
  return (← graphObject g).graph

def setGraph (g : GraphRef) (graph : Graph) : Run Unit :=
  modify fun w => { w with
    graphs := w.graphs.set g.index { w.graphs.get g.index with graph := graph } }

def generator (g : GeneratorRef) : Run Generator := do
  return (← get).generators.get g.index

def modifyGenerator (g : GeneratorRef) (f : Generator → Generator) : Run Unit :=
  modify fun w => { w with generators := w.generators.set g.index (f (w.generators.get g.index)) }

def tree (t : TreeRef) : Run Tree := do
  return (← get).trees.get t.index

def setTree (t : TreeRef) (tree : Tree) : Run Unit :=
  modify fun w => { w with trees := w.trees.set t.index tree }

def cursor (c : CursorRef) : Run Cursor := do
  return (← get).cursors.get c.index

def setCursor (c : CursorRef) (state : CursorState) : Run Unit :=
  modify fun w => { w with
    cursors := w.cursors.set c.index { w.cursors.get c.index with state := state } }

/-- Write a line into the log. -/
def note (entry : LogEntry) : Run Unit :=
  modify fun w => { w with log := w.log ++ [entry] }

/-- Let a name refer to an object. -/
def bind (name : String) (object : Object) : Run Unit :=
  modify fun w => { w with bindings := (name, object) :: w.bindings }

/-- What a name refers to. -/
def object (name : String) : Run Object := do
  match (← get).bindings.lookup name with
  | some object => return object
  | none => throw (.noObject name)

/-- Reserve marks for NaNs, and give the first of them. -/
def reserveMarks (count : Nat) : Run Nat := do
  let w ← get
  set { w with nextMark := w.nextMark + count }
  return w.nextMark

/-- The name under which a sink was made. -/
def sinkLabel (s : SinkRef) : Run String := do
  let w ← get
  return match s with
    | .graph g => (w.graphs.get g.index).label
    | .recorder i => (w.recorders.get i).label
    | .silent i => w.silents.get i
    | .generator g => (w.generators.get g.index).label

end World
end EvolvingGraph
