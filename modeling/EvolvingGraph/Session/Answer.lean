/-
  EvolvingGraph.Session.Answer
  ────────────────────────────
  **WHAT A STEP ANSWERS.**

  Most steps answer with a value, others with a picture of a graph, a matrix, a
  table or the configuration of a tree.  The report of a step adds the events
  that recorders received and the lines that were logged while it ran.
-/
import EvolvingGraph.Matrix.Dense
import EvolvingGraph.Table.Basic
import EvolvingGraph.World

namespace EvolvingGraph

/-- The size of a graph. -/
structure GraphSummary where
  id : Value
  directed : Bool
  nodeCount : Nat
  edgeCount : Nat

/-- The configuration of a tree, as it is shown. -/
structure TreeState where
  graph : Option String
  tree : Tree

/-- What a step answers. -/
inductive Answer where
  | value (v : Value)
  | item (v : Value)
  | stop
  | attributes (attributes : Attributes)
  | summary (s : GraphSummary)
  /-- All nodes and edges with their attributes. -/
  | dump (s : GraphSummary) (nodes : List (Value × Attributes))
      (edges : List (EdgeView × Attributes))
  | sparse (m : SparseMatrix)
  | dense (rows : List (List Double))
  | network (n : Network)
  | table (t : Table)
  | treeState (s : TreeState)
  | kinds (kinds : List ErrorKind)

/-- The answer of a step that only does something. -/
def Answer.nothing : Answer := .value .null

/-- What is reported of a step. -/
structure Report where
  result : Except Error Answer
  received : List Receipt
  log : List LogEntry

end EvolvingGraph
