/-
  EvolvingGraph.Marking.Configuration
  ───────────────────────────────────
  **HOW A SPANNING TREE IS CONFIGURED.**

  A spanning tree marks edges of a graph by an attribute: one value on tree
  edges, another one on all others.  Its configuration names the attribute and
  the two values, the attribute that holds the weights, whether small or large
  weights are wanted, and how the edges are chosen.

  A configuration is checked when it is made and at every later assignment: the
  two values differ, the mode is known, and a strategy of one's own comes with
  a builder.  An assignment that is refused changes nothing.
-/
import EvolvingGraph.Error
import EvolvingGraph.Forest.Basic
import EvolvingGraph.Value.Equality

namespace EvolvingGraph

/-- How the edges of a tree are chosen. -/
inductive Strategy where
  | kruskal
  | prim
  | custom
  deriving DecidableEq, Repr

namespace Strategy

/-- The word for a strategy. -/
def name : Strategy → String
  | .kruskal => "kruskal"
  | .prim => "prim"
  | .custom => "custom"

/-- The strategy that a value names.  An object whose comparison makes no sense
names none; other failures to compare are passed on. -/
def ofValue (v : Value) : Except Error Strategy :=
  match v with
  | .str s =>
    match [kruskal, prim, custom].find? (·.name == s) with
    | some strategy => .ok strategy
    | none => .error (.unknownStrategy v)
  | .incomparable _ .type => .error (.comparison .type)
  | .incomparable _ .runtime => .error (.comparison .runtime)
  | v => .error (.unknownStrategy v)

end Strategy

/-- The mode that a value names. -/
def Forest.Mode.ofValue (v : Value) : Except Error Forest.Mode :=
  match v with
  | .str s =>
    match Forest.Mode.ofName? s with
    | some mode => .ok mode
    | none => .error .unknownMode
  | .incomparable _ fault => .error (.comparison fault)
  | _ => .error .unknownMode

/-- Whether two flags count as equal, as a step that can fail. -/
def flagsMatch (a b : Value) : Except Error Bool :=
  match a.coincides b with
  | .ok same => .ok same
  | .error fault => .error (.comparison fault)

/-- What is offered as the builder of a tree. -/
inductive Offered (β : Type) where
  | nothing
  | callable (b : β)
  | notCallable

/-- A spanning tree: the graph it works on, if it has one, and its configuration. -/
structure SpanningTree (β : Type) where
  graph : Option GraphRef
  flagAttribute : Value
  flagOn : Value
  flagOff : Value
  weightName : Value
  mode : Forest.Mode
  strategy : Strategy
  builder : Option β

/-- The values that a configuration is made from. -/
structure Settings where
  flagAttribute : Value
  flagOn : Value
  flagOff : Value
  strategy : Value
  weightName : Value
  mode : Value

namespace Settings

/-- The settings of a tree about which nothing is said. -/
def standard : Settings where
  flagAttribute := .str "SpanningTree.flag"
  flagOn := .bool true
  flagOff := .bool false
  strategy := .str "kruskal"
  weightName := .str "weight"
  mode := .str "distance"

end Settings

namespace SpanningTree

variable {β : Type}

instance : Inhabited (SpanningTree β) :=
  ⟨⟨none, .str "SpanningTree.flag", .bool true, .bool false, .str "weight", .distance, .kruskal,
    none⟩⟩

/-! ## §1. Assignments. -/

/-- Assign the value of tree edges; nothing comes of a value that matches the
value of the other edges. -/
def setFlagOn (t : SpanningTree β) (v : Value) : Except Error (Option (SpanningTree β)) := do
  if ← flagsMatch v t.flagOff then return none
  return some { t with flagOn := v }

/-- Assign the value of the edges outside the tree; nothing comes of a value
that matches the value of tree edges. -/
def setFlagOff (t : SpanningTree β) (v : Value) : Except Error (Option (SpanningTree β)) := do
  if ← flagsMatch v t.flagOn then return none
  return some { t with flagOff := v }

/-- Assign the mode. -/
def setMode (t : SpanningTree β) (v : Value) : Except Error (SpanningTree β) := do
  let mode ← Forest.Mode.ofValue v
  return { t with mode }

/-- Assign the strategy; one's own needs a builder. -/
def setStrategy (t : SpanningTree β) (v : Value) : Except Error (SpanningTree β) := do
  let strategy ← Strategy.ofValue v
  if strategy = .custom && t.builder.isNone then throw .builderMissing
  return { t with strategy }

/-- Assign the builder; the custom strategy cannot do without. -/
def setBuilder (t : SpanningTree β) : Offered β → Except Error (SpanningTree β)
  | .notCallable => .error .builderNotCallable
  | .callable b => .ok { t with builder := some b }
  | .nothing => if t.strategy = .custom then .error .builderMissing else .ok { t with builder := none }

/-! ## §2. Making a tree. -/

/-- A tree on a graph.  A builder is offered only together with the custom strategy. -/
def make (graph : Option GraphRef) (s : Settings) (offered : Offered β) :
    Except Error (SpanningTree β) := do
  if ← flagsMatch s.flagOn s.flagOff then throw .equalFlags
  let mode ← Forest.Mode.ofValue s.mode
  let blank : SpanningTree β :=
    ⟨graph, s.flagAttribute, s.flagOn, s.flagOff, s.weightName, mode, .kruskal, none⟩
  let t ← (← blank.setBuilder offered).setStrategy s.strategy
  if t.strategy ≠ .custom && t.builder.isSome then throw .builderUnused
  return t

/-- One line about a tree. -/
def describe (t : SpanningTree β) : String :=
  "SpanningTree(strategy=" ++ Text.quoted t.strategy.name ++ ", mode=" ++ Text.quoted t.mode.name
    ++ ", flag_attribute=" ++ t.flagAttribute.inspect ++ ", flag_on=" ++ t.flagOn.inspect
    ++ ", flag_off=" ++ t.flagOff.inspect ++ ")"

end SpanningTree
end EvolvingGraph
