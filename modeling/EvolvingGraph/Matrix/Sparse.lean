/-
  EvolvingGraph.Matrix.Sparse
  ───────────────────────────
  **MATRICES THAT STORE SOME OF THEIR ENTRIES.**

  A sparse matrix has a shape and stored entries; a position without one holds
  zero.  The adjacency matrix of a graph stores one entry for a directed edge
  and two for an undirected one, zeros included, in the order of the nodes.
-/
import EvolvingGraph.Graph.Basic
import EvolvingGraph.Value.Number

namespace EvolvingGraph

/-- A stored entry of a matrix. -/
structure MatrixEntry where
  row : Nat
  column : Nat
  value : Double
  deriving DecidableEq, Repr

namespace MatrixEntry

/-- Row by row, and in a row column by column. -/
def precedes (e f : MatrixEntry) : Bool :=
  e.row < f.row || (e.row == f.row && e.column ≤ f.column)

end MatrixEntry

/-- A matrix by its shape and its stored entries. -/
structure SparseMatrix where
  rows : Nat
  columns : Nat
  entries : List MatrixEntry
  deriving Repr

namespace SparseMatrix

/-- The matrix with its entries row by row. -/
def sorted (m : SparseMatrix) : SparseMatrix :=
  { m with entries := m.entries.mergeSort MatrixEntry.precedes }

end SparseMatrix

/-! ## Adjacency. -/

/-- A value converted to a double, as a step that can fail. -/
def Value.convert (v : Value) : Except Error Double :=
  match v.toDouble with
  | .ok x => .ok x
  | .error fault => .error (.conversion fault)

/-- Values converted one after the other.  Collections among them are noticed
before anything is converted. -/
def Value.convertAll (values : List Value) : Except Error (List Double) := do
  let isCollection : Value → Bool
    | .tuple _ | .list _ => true
    | _ => false
  if values.any isCollection then throw (.conversion .notNumeral)
  values.mapM Value.convert

namespace Network

/-- The value of an attribute on a listed link, 1 where the link has none.  An
attribute is looked up by its key; "true" asks for all attributes at once,
which are no number, and "false" for none. -/
def weightOf (name : Value) (l : Listed) : Except Error Value :=
  match name with
  | .bool true => .error (.conversion .wrongType)
  | .bool false => .error (.conversion .notNumeral)
  | name =>
    match name.key? with
    | some k => .ok ((l.attributes.get? k).getD (.int 1))
    | none => .error .unhashable

/-- The place of a node among the nodes. -/
def position (n : Network) (k : Key) : Nat :=
  n.nodes.identifiers.findIdx (·.key == k)

/-- The entries that a listed link contributes.  In an undirected network a
loop is counted from both of its ends, and once of these taken away again. -/
def entriesOf (n : Network) (l : Listed) (weight : Double) : List MatrixEntry :=
  let source := n.position l.sourceKey
  let target := n.position l.targetKey
  if n.directed then [⟨source, target, weight⟩]
  else if source = target then [⟨source, source, (weight.add weight).add weight.neg⟩]
  else [⟨source, target, weight⟩, ⟨target, source, weight⟩]

/-- The weighted adjacency matrix, nodes in their order. -/
def adjacency (n : Network) (weightName : Value) : Except Error SparseMatrix := do
  let listing := n.listing
  let weights ← listing.mapM (weightOf weightName)
  let isBadLoop (lw : Listed × Value) : Bool :=
    !n.directed && lw.1.sourceKey == lw.1.targetKey && !lw.2.isNegatable
  if (listing.zip weights).any isBadLoop then throw (.conversion .wrongType)
  let values ← Value.convertAll weights
  let entries := (listing.zip values).flatMap fun (l, x) => n.entriesOf l x
  return SparseMatrix.sorted ⟨n.nodes.size, n.nodes.size, entries⟩

end Network
end EvolvingGraph
