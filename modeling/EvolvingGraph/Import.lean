/-
  EvolvingGraph.Import
  ────────────────────
  **GRAPHS MADE FROM MATRICES, NETWORKS AND TABLES.**

  Each importer makes the requests of an ordinary construction — nodes first,
  then edges with their attributes — on a graph that nobody watches, and fails
  where one of them does.

    * A square matrix: nodes 0, 1, …, an edge i-j for each entry that is not
      zero; without direction, after a symmetric form has been taken, for the
      upper triangle alone.
    * A network: an edge's attribute `id` becomes its id; without one the pair
      of its ends is the id.
    * A table: a row is an edge; nodes come in the order in which they are met.
-/
import EvolvingGraph.Matrix.Dense
import EvolvingGraph.Table.Basic

namespace EvolvingGraph

/-! ## §1. Matrices. -/

/-- How a matrix is read as a graph. -/
structure MatrixReading where
  directed : Bool
  weighted : Bool
  symmetrisation : Value
  ignoresLoops : Bool
  weightName : Value

namespace MatrixReading

/-- Undirected, with weights; of two facing entries the greater, and no loops. -/
def standard : MatrixReading where
  directed := false
  weighted := true
  symmetrisation := .str "max"
  ignoresLoops := true
  weightName := .str "weight"

end MatrixReading

namespace Graph

/-- Make requests on a graph, one after the other. -/
def performAll (g : Graph) (requests : List (Change × Attributes)) : Except Error Graph :=
  requests.foldlM (fun g request => g.perform request.1 request.2) g

/-- The matrix whose entries that are not zero become edges. -/
def prepareMatrix (m : DenseMatrix) (reading : MatrixReading) : Except Error DenseMatrix := do
  let m := if reading.ignoresLoops then m.withoutDiagonal else m
  if reading.directed then return m
  let way ← DenseMatrix.Symmetrisation.ofValue reading.symmetrisation
  return (m.symmetrised way).upperTriangle

/-- The request that makes an edge of a matrix entry. -/
def requestOfEntry (reading : MatrixReading) (e : MatrixEntry) :
    Except Error (Change × Attributes) := do
  let id := .str (toString e.row ++ "-" ++ toString e.column)
  let attributes ←
    if reading.weighted then do
      let name ← identify reading.weightName
      pure (Catalog.empty.insert name (.ofDouble e.value))
    else pure .empty
  return (.addEdge id (.int e.row) (.int e.column), attributes)

/-- The graph of a matrix. -/
def ofMatrix (m : DenseMatrix) (reading : MatrixReading) : Except Error Graph := do
  if !m.isSquare then throw .notSquare
  let prepared ← prepareMatrix m reading
  let nodes := (List.range m.rows).map fun (i : Nat) => (Change.addNode (.int i), Catalog.empty)
  let withNodes ← (empty reading.directed).performAll nodes
  let edges ← prepared.nonzeroEntries.mapM (requestOfEntry reading)
  withNodes.performAll edges

/-- The graph of an array of two dimensions. -/
def ofDense (a : DenseArray) (reading : MatrixReading) : Except Error Graph :=
  match DenseMatrix.ofArray? a with
  | some m => ofMatrix m reading
  | none => .error .notSquare

/-- The graph of an array that may be flat, or a single number. -/
def ofFlat (a : DenseArray) (reading : MatrixReading) : Except Error Graph :=
  match DenseMatrix.ofFlatArray? a with
  | some m => ofMatrix m reading
  | none => .error .badArgument

/-! ## §2. Networks. -/

/-- The requests that rebuild a network: its nodes, then its links as listed. -/
def requestsOfNetwork (n : Network) : List (Change × Attributes) :=
  let nodes := n.nodes.entries.map fun (id, attributes) => (Change.addNode id.value, attributes)
  let edges := n.listing.map fun l =>
    let pair := Value.tuple [l.source, l.target]
    let id := (l.attributes.get? (.text "id")).getD pair
    (Change.addEdge id l.source l.target, l.attributes.erase (.text "id"))
  nodes ++ edges

/-- The graph of a network; one with parallel links is refused. -/
def ofNetwork (n : Network) (isMultigraph : Bool) : Except Error Graph := do
  if isMultigraph then throw .multigraph
  (empty n.directed).performAll (requestsOfNetwork n)

end Graph

namespace Network

/-- A node id of a network that is being described. -/
def nodeIdentifier (id : Value) : Except Error Identifier := do
  let name ← Graph.identify id
  if id.isNull then throw .nullNode
  return name

/-- The attributes that a list of names and values describes. -/
def describedAttributes (pairs : List (Value × Value)) : Except Error Attributes :=
  match Attributes.ofPairs? pairs with
  | some attributes => .ok attributes
  | none => .error .unhashable

/-- Add the ends of a link, the source first, and the link itself. -/
def describeLink (n : Network) (source target : Value) (attributes : Attributes) :
    Except Error Network := do
  let sourceName ← nodeIdentifier source
  let n := n.mergeNode sourceName .empty
  let targetName ← nodeIdentifier target
  let n := n.mergeNode targetName .empty
  return n.mergeLink sourceName targetName attributes

/-- The network that lists of nodes and links describe. -/
def ofLists (directed : Bool) (nodes : List (Value × List (Value × Value)))
    (links : List (Value × Value × List (Value × Value))) : Except Error Network := do
  let withNodes ← nodes.foldlM (fun n (id, pairs) => do
    let name ← nodeIdentifier id
    let attributes ← describedAttributes pairs
    return n.mergeNode name attributes) (empty directed)
  links.foldlM (fun n (source, target, pairs) => do
    let attributes ← describedAttributes pairs
    n.describeLink source target attributes) withNodes

end Network

/-! ## §3. Tables. -/

/-- Which columns of a table hold the ends and the id of an edge. -/
structure TableReading where
  directed : Bool
  source : Value
  target : Value
  edgeId : Value

namespace TableReading

/-- Undirected, with the usual column names. -/
def standard : TableReading where
  directed := false
  source := .str "source"
  target := .str "target"
  edgeId := .str "id"

end TableReading

namespace Graph

/-- Add a node unless it is there. -/
def ensureNode (g : Graph) (id : Value) : Except Error Graph :=
  if g.hasNode id then .ok g else g.perform (.addNode id) .empty

/-- The column that has to be there. -/
def requiredColumn (t : Table) (name : Value) : Except Error NamedColumn := do
  match ← t.column? name with
  | some c => return c
  | none => throw (.missingColumn name)

/-- The cell of a column in a row. -/
def cellAt (row : Nat) (c : NamedColumn) : Value := (c.cells[row]?).getD .null

/-- Add the edge of one row. -/
def addRow (source target : NamedColumn) (edgeId : Option NamedColumn)
    (others : List NamedColumn) (g : Graph) (row : Nat) : Except Error Graph := do
  let u := cellAt row source
  let v := cellAt row target
  let g ← g.ensureNode u
  let g ← g.ensureNode v
  let id := match edgeId with
    | some c => cellAt row c
    | none => .tuple [u, v]
  let present := (others.map fun c => (c.name, cellAt row c)).filter (!Column.isMissing ·.2)
  let attributes ← Network.describedAttributes present
  g.perform (.addEdge id u v) attributes

/-- The graph of a table. -/
def ofTable (t : Table) (reading : TableReading) : Except Error Graph := do
  let source ← requiredColumn t reading.source
  let target ← requiredColumn t reading.target
  let edgeId ← if reading.edgeId.isNull then pure none else t.column? reading.edgeId
  let used := [reading.source.key?, reading.target.key?, reading.edgeId.key?]
  let others := t.columns.filter fun c => !used.contains c.name.key?
  (List.range t.height).foldlM (addRow source target edgeId others) (empty reading.directed)

end Graph
end EvolvingGraph
