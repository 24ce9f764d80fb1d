/-
  EvolvingGraph.Table.Basic
  ─────────────────────────
  **TABLES OF EDGES.**

  A table has named columns of equal length.  The edges of a graph make one
  with a row for an edge: its id, its two ends, and its attributes, whose names
  become columns in the order in which they first come up.  An attribute that
  has the name of one of the first three columns takes its cell.
-/
import EvolvingGraph.Graph.Basic
import EvolvingGraph.Table.Column

namespace EvolvingGraph

/-- A named column. -/
structure NamedColumn where
  name : Value
  cells : List Value

/-- Columns of one length. -/
structure Table where
  columns : List NamedColumn
  height : Nat

namespace Table

/-- The cells of a table row by row. -/
def rows (t : Table) : List (List Value) :=
  (List.range t.height).map fun i => t.columns.map fun c => (c.cells[i]?).getD .null

/-- The column of a name.  A value that can name nothing is refused. -/
def column? (t : Table) (name : Value) : Except Error (Option NamedColumn) :=
  match name.key? with
  | some k => .ok (t.columns.find? fun c => c.name.key? == some k)
  | none => .error .unhashable

/-- A table from columns given by name.  A name that comes twice stands for the
last of its columns, at the first of their places. -/
def ofColumns (firstMark : Nat) (columns : List (Value × Value)) : Except Error Table := do
  let listed ← columns.foldlM (fun (c : Catalog Value) (name, cells) => do
    let id ← Graph.identify name
    return c.insert id cells) .empty
  let named ← listed.entries.mapM fun (id, cells) => match cells with
    | .list items => Except.ok (NamedColumn.mk id.value items)
    | _ => .error .unevenColumns
  let height := (named.head?.map (·.cells.length)).getD 0
  if named.any (·.cells.length != height) then throw .unevenColumns
  let normalised := named.mapIdx fun i c =>
    { c with cells := Column.normalised (firstMark + i * height) c.cells }
  return ⟨normalised, height⟩

end Table

namespace Graph

/-- The cells of an edge: its id, its ends, and its attributes. -/
def rowOf (id : Identifier) (ends : Endpoints) (attributes : Attributes) : Catalog Value :=
  Catalog.empty.insertAll
    ([(.ofText "id", id.value), (.ofText "source", ends.source.value),
      (.ofText "target", ends.target.value)] ++ attributes.entries)

/-- The names of the columns that rows have, in order of first appearance. -/
def columnNames (rows : List (Catalog Value)) : List Identifier :=
  (rows.foldl (fun (names : Catalog Unit) row =>
    row.identifiers.foldl (fun names id =>
      if names.contains id.key then names else names.insert id ()) names) .empty).identifiers

/-- The rows of the table of edges. -/
def edgeRows (g : Graph) : Except Error (List (Catalog Value)) :=
  g.edges.entries.mapM fun (id, ends) => do
    let attributes ← g.edgeAttributes id.value
    return rowOf id ends attributes

/-- The names of the columns that a table without rows has. -/
def identityColumns : List Identifier :=
  [Identifier.ofText "id", Identifier.ofText "source", Identifier.ofText "target"]

/-- The edges of a graph as a table; each NaN that is put in gets a mark from
`firstMark` on. -/
def table (g : Graph) (firstMark : Nat) : Except Error Table := do
  let rows ← g.edgeRows
  let names := if rows.isEmpty then identityColumns else columnNames rows
  let columns := names.mapIdx fun i name =>
    let cells := rows.map fun row => (row.get? name.key).getD (.nan 0)
    NamedColumn.mk name.value (Column.normalised (firstMark + i * rows.length) cells)
  return ⟨columns, rows.length⟩

end Graph
end EvolvingGraph
