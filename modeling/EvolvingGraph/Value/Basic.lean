/-
  EvolvingGraph.Value.Basic
  ─────────────────────────
  **VALUES THAT IDS, ATTRIBUTES AND FLAGS ARE MADE OF.**

  A graph puts no type on its ids, attribute names, attribute values and flags,
  so all of them are `Value`s: nothing, booleans, whole numbers of any size,
  double-precision numbers, text, tuples, lists, edge views, and objects that
  refuse to be compared.  Which values may serve as ids is the matter of
  `EvolvingGraph.Value.Key`; when two are equal that of
  `EvolvingGraph.Value.Equality`.
-/
import EvolvingGraph.Binary64.Rounding

namespace EvolvingGraph

/-- A reference to one of the graphs of a session. -/
structure GraphRef where
  index : Nat
  deriving DecidableEq, Repr, Inhabited

/-- What goes wrong when an incomparable object is compared. -/
inductive ComparisonFault where
  | value
  | type
  | runtime
  deriving DecidableEq, Repr

/-- A free value. -/
inductive Value where
  | null
  | bool (b : Bool)
  | int (n : Int)
  | float (x : Real64)
  /-- A NaN.  NaN equals nothing, yet a store finds the very NaN it holds, so
  each one that is written down carries a mark of its own. -/
  | nan (mark : Nat)
  | str (s : String)
  | tuple (items : List Value)
  | list (items : List Value)
  /-- A named object; comparing it with anything, itself included, fails. -/
  | incomparable (name : String) (fault : ComparisonFault)
  /-- A view of an edge: the graph, the id it was asked for, and its endpoints. -/
  | edge (graph : GraphRef) (id source target : Value)
  deriving Repr

namespace Value

instance : Inhabited Value := ⟨.null⟩

/-- Whether a value stands for "nothing". -/
def isNull : Value → Bool
  | .null => true
  | _ => false

/-- Whether a value counts as true: all do but nothing, false, the zeros, and
text, tuples and lists without content. -/
def isTruthy : Value → Bool
  | .null => false
  | .bool b => b
  | .int n => n != 0
  | .float x => !x.isZero
  | .str s => !s.isEmpty
  | .tuple items => !items.isEmpty
  | .list items => !items.isEmpty
  | .nan _ | .incomparable .. | .edge .. => true

/-- A double as a value.  A NaN that a computation yields carries mark 0. -/
def ofDouble : Double → Value
  | .nan => .nan 0
  | .real x => .float x

end Value

/-- A view of an edge: the graph it belongs to, the id it was looked up with,
and the endpoints that the edge had at that time. -/
structure EdgeView where
  graph : GraphRef
  id : Value
  source : Value
  target : Value
  deriving Inhabited

/-- An edge view is a value like any other. -/
def EdgeView.toValue (e : EdgeView) : Value := .edge e.graph e.id e.source e.target

end EvolvingGraph
