/-
  EvolvingGraph.Matrix.Dense
  ──────────────────────────
  **MATRICES GIVEN AS NESTED LISTS, AND THEIR SYMMETRIC FORMS.**

  An array is given as nested lists of values.  Its shape is found first: the
  lists have to be nested to the same depth everywhere, with the same lengths.
  Only then are the values converted, in order.  A symmetric form of a square
  matrix takes, at each position, one value of the two that face each other:
  the greater, the smaller, or the mean.
-/
import EvolvingGraph.Matrix.Sparse

namespace EvolvingGraph

/-! ## §1. Arrays. -/

/-- Numbers in any number of dimensions, the last one running fastest. -/
structure DenseArray where
  shape : List Nat
  data : List Double

namespace DenseArray

/-- The array of a shape that holds zeros. -/
def zeros (shape : List Nat) : DenseArray :=
  ⟨shape, List.replicate (shape.foldl (· * ·) 1) .zero⟩

mutual

/-- The shape of nested lists and the values in them, if the lists are nested evenly. -/
def unnest? : Value → Option (List Nat × List Value)
  | .list items => (unnestItems? items).map fun (shape, values) => (items.length :: shape, values)
  | .tuple items => (unnestItems? items).map fun (shape, values) => (items.length :: shape, values)
  | v => some ([], [v])

/-- The common shape of items and all the values in them. -/
def unnestItems? : List Value → Option (List Nat × List Value)
  | [] => some ([], [])
  | v :: rest =>
    match unnest? v, unnestItems? rest with
    | some (shape, values), some (restShape, restValues) =>
      if rest.isEmpty || shape = restShape then some (shape, values ++ restValues) else none
    | _, _ => none

end

/-- Nested lists as an array. -/
def ofValue (v : Value) : Except Error DenseArray :=
  match unnest? v with
  | none => .error (.conversion .notNumeral)
  | some (shape, values) => do
    let data ← values.mapM Value.convert
    return ⟨shape, data⟩

end DenseArray

/-! ## §2. Matrices. -/

/-- A matrix by its shape and its value at each position. -/
structure DenseMatrix where
  rows : Nat
  columns : Nat
  entry : Nat → Nat → Double

namespace DenseMatrix

/-- The rows of a matrix. -/
def toRows (m : DenseMatrix) : List (List Double) :=
  (List.range m.rows).map fun i => (List.range m.columns).map fun j => m.entry i j

/-- A two-dimensional array as a matrix. -/
def ofArray? (a : DenseArray) : Option DenseMatrix :=
  match a.shape with
  | [rows, columns] => some ⟨rows, columns, fun i j => (a.data[i * columns + j]?).getD .zero⟩
  | _ => none

/-- An array of at most two dimensions as a matrix: a number counts as one
row of one, a flat array as one row. -/
def ofFlatArray? (a : DenseArray) : Option DenseMatrix :=
  match a.shape with
  | [] => ofArray? { a with shape := [1, 1] }
  | [columns] => ofArray? { a with shape := [1, columns] }
  | _ => ofArray? a

/-- The matrix with the given entries; entries at one position add up. -/
def ofEntries (m : SparseMatrix) : DenseMatrix where
  rows := m.rows
  columns := m.columns
  entry i j := match (m.entries.filter fun e => e.row == i && e.column == j).map (·.value) with
    | [] => .zero
    | x :: rest => rest.foldl Double.add x

/-- A matrix that has as many rows as columns. -/
def isSquare (m : DenseMatrix) : Bool := m.rows == m.columns

/-- The matrix with zeros on its diagonal. -/
def withoutDiagonal (m : DenseMatrix) : DenseMatrix :=
  { m with entry := fun i j => if i = j then .zero else m.entry i j }

/-- The entries that are not zero, row by row; NaN is not zero. -/
def nonzeroEntries (m : DenseMatrix) : List MatrixEntry :=
  (List.range m.rows).flatMap fun i =>
    ((List.range m.columns).map fun j => ⟨i, j, m.entry i j⟩).filter fun e => !e.value.isZero

/-! ## §3. Symmetric forms. -/

/-- How two values that face each other are made one. -/
inductive Symmetrisation where
  | maximum
  | minimum
  | average
  deriving DecidableEq, Repr

namespace Symmetrisation

/-- One value for two.  In comparisons with NaN the first value stays. -/
def combine : Symmetrisation → Double → Double → Double
  | .maximum, x, y => if x.less y then y else x
  | .minimum, x, y => if y.less x then y else x
  | .average, x, y => (x.add y).half

/-- The word for a way of combining. -/
def name : Symmetrisation → String
  | .maximum => "max"
  | .minimum => "min"
  | .average => "average"

/-- The way of combining that a value names. -/
def ofValue (v : Value) : Except Error Symmetrisation :=
  match v with
  | .str s =>
    match [maximum, minimum, average].find? (·.name == s) with
    | some way => .ok way
    | none => .error .unknownSymmetrisation
  | .incomparable _ fault => .error (.comparison fault)
  | _ => .error .unknownSymmetrisation

end Symmetrisation

/-- The value that combines two facing ones; a zero has a plus sign. -/
def combineAt (m : DenseMatrix) (way : Symmetrisation) (i j : Nat) : Double :=
  let x := way.combine (m.entry i j) (m.entry j i)
  if x.isZero then .zero else x

/-- The symmetric form of a square matrix. -/
def symmetrised (m : DenseMatrix) (way : Symmetrisation) : DenseMatrix :=
  { m with entry := m.combineAt way }

/-- The upper triangle with the diagonal; zeros elsewhere. -/
def upperTriangle (m : DenseMatrix) : DenseMatrix :=
  { m with entry := fun i j => if i ≤ j then m.entry i j else .zero }

end DenseMatrix
end EvolvingGraph
