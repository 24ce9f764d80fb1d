/-
  EvolvingGraph.Error
  ───────────────────
  **WHAT CAN GO WRONG.**

  Each constructor of `Error` is one cause of failure, with the values that it
  is about.  Two things are read off a cause: its kind, which has a place in a
  small hierarchy (`ErrorKind.lineage`), and its message.  A cause without a
  message is one that the elementary operations on values report, such as the
  use of a list as an id.
-/
import EvolvingGraph.Value.Printer

namespace EvolvingGraph

/-! ## §1. Kinds. -/

/-- The kinds of failure, from the specific to the most general. -/
inductive ErrorKind where
  | elementNotFound
  | idInUse
  | generatorState
  | library
  | value
  | type
  | key
  | lookup
  | overflow
  | arithmetic
  | runtime
  | missingAttribute
  | recursion
  | storage
  | scripted
  | noObject
  | exception
  | baseException
  | object
  deriving DecidableEq, Repr

namespace ErrorKind

/-- The kinds that a kind is directly a case of. -/
def parents : ErrorKind → List ErrorKind
  | .elementNotFound => [.library, .key]
  | .idInUse => [.library, .value]
  | .generatorState => [.library, .runtime]
  | .key => [.lookup]
  | .overflow => [.arithmetic]
  | .recursion => [.runtime]
  | .exception => [.baseException]
  | .baseException => [.object]
  | .object => []
  | _ => [.exception]

/-- A kind and everything reached from it by at most `steps` steps upwards. -/
def within : (steps : Nat) → ErrorKind → List ErrorKind
  | 0, k => [k]
  | steps + 1, k => (k :: k.parents.flatMap (within steps)).eraseDups

/-- A kind and all the kinds that it is a case of. -/
def lineage (k : ErrorKind) : List ErrorKind := k.within 5

end ErrorKind

/-! ## §2. Causes. -/

/-- Why a value could not be read as a double. -/
inductive ConversionFault where
  /-- Text that spells no number, or a collection. -/
  | notNumeral
  /-- A whole number beyond the range of doubles. -/
  | tooLarge
  /-- An object that has no numerical reading. -/
  | wrongType
  deriving DecidableEq, Repr

/-- The causes of failure. -/
inductive Error where
  -- elements
  | nodeInUse (id : Value)
  | edgeInUse (id : Value)
  | pairInUse (source target : Value)
  | nodeNotFound (id : Value)
  | edgeNotFound (id : Value)
  | notAnEndpoint (node edge : Value)
  -- the order of a generation run
  | begunTwice
  | pulledBeforeBegin
  | pulledAfterEnd
  | endedBeforeBegin
  | endedTwice
  | negativeLimit
  -- sinks
  | ownSink
  -- spanning trees
  | equalFlags
  | unknownStrategy (given : Value)
  | unsupportedStrategy (given : Value)
  | builderMissing
  | builderUnused
  | builderNotCallable
  | unknownMode
  | noGraphForId
  | weightNotNumber (edge weight name : Value)
  | weightNaN (edge name : Value)
  -- matrices, networks and tables
  | notSquare
  | unknownSymmetrisation
  | multigraph
  | missingColumn (name : Value)
  -- failures of the elementary operations
  | unhashable
  | nullNode
  | badArgument
  | missingKey
  | storageFault
  | comparison (fault : ComparisonFault)
  | conversion (fault : ConversionFault)
  | unevenColumns
  | shapesDiffer
  | notIterable
  | unordered
  | readOnly
  | iteratorBusy
  | noGraph
  | noSuchOperation
  | nestingTooDeep
  -- scripts
  | scripted (message : String)
  | noObject (name : String)

namespace Error

/-- The kind of a cause. -/
def kind : Error → ErrorKind
  | .nodeInUse _ | .edgeInUse _ | .pairInUse .. => .idInUse
  | .nodeNotFound _ | .edgeNotFound _ | .notAnEndpoint .. => .elementNotFound
  | .begunTwice | .pulledBeforeBegin | .pulledAfterEnd | .endedBeforeBegin | .endedTwice =>
    .generatorState
  | .negativeLimit | .ownSink | .equalFlags | .unknownStrategy _ | .unsupportedStrategy _
  | .builderMissing | .builderUnused | .unknownMode | .noGraphForId | .weightNaN ..
  | .unknownSymmetrisation | .missingColumn _ => .value
  | .builderNotCallable | .weightNotNumber .. | .notSquare | .multigraph => .type
  | .unhashable | .badArgument | .notIterable | .unordered | .readOnly => .type
  | .nullNode | .unevenColumns | .shapesDiffer | .iteratorBusy => .value
  | .missingKey => .key
  | .storageFault => .storage
  | .comparison .value => .value
  | .comparison .type => .type
  | .comparison .runtime => .runtime
  | .conversion .notNumeral => .value
  | .conversion .tooLarge => .overflow
  | .conversion .wrongType => .type
  | .noGraph | .noSuchOperation => .missingAttribute
  | .nestingTooDeep => .recursion
  | .scripted _ => .scripted
  | .noObject _ => .noObject

/-- The message of a cause, if it has one. -/
def message : Error → Option String
  | .nodeInUse id => some ("Node " ++ id.inspect ++ " already exists.")
  | .edgeInUse id => some ("Edge " ++ id.inspect ++ " already exists.")
  | .pairInUse source target =>
    some ("An edge between " ++ source.inspect ++ " and " ++ target.inspect ++ " already exists.")
  | .nodeNotFound id => some ("Node " ++ id.inspect ++ " not found.")
  | .edgeNotFound id => some ("Edge " ++ id.inspect ++ " not found.")
  | .notAnEndpoint node edge =>
    some ("Node " ++ node.inspect ++ " is not an endpoint of edge " ++ edge.inspect ++ ".")
  | .begunTwice => some "begin() called twice; call end() before starting a new run."
  | .pulledBeforeBegin => some "next_element() called before begin()."
  | .pulledAfterEnd => some "next_element() called after end()."
  | .endedBeforeBegin => some "end() called before begin()."
  | .endedTwice => some "end() called twice."
  | .negativeLimit => some "max_steps must be >= 0."
  | .ownSink => some "A source cannot be its own sink."
  | .equalFlags => some "flag_on and flag_off must be different values."
  | .unknownStrategy given =>
    some ("Unknown strategy '" ++ given.display
      ++ "'; expected one of ['kruskal', 'prim', 'custom'].")
  | .unsupportedStrategy given => some ("Unsupported tree strategy '" ++ given.display ++ "'.")
  | .builderMissing => some "The 'custom' strategy requires a builder."
  | .builderUnused => some "A builder can only be used with the 'custom' strategy."
  | .builderNotCallable => some "builder must be callable."
  | .unknownMode => some "mode must be 'distance' or 'similarity'."
  | .noGraphForId => some "Cannot resolve an edge id without a graph."
  | .weightNotNumber edge weight name =>
    some ("Edge " ++ edge.inspect ++ " has non-numeric weight " ++ weight.inspect
      ++ " in attribute '" ++ name.display ++ "'.")
  | .weightNaN edge name =>
    some ("Edge " ++ edge.inspect ++ " has NaN weight in attribute '" ++ name.display ++ "'.")
  | .notSquare => some "Matrix must be square (n x n)."
  | .unknownSymmetrisation => some "Unsupported option for symmetrization."
  | .multigraph => some "Multigraphs are not supported."
  | .missingColumn name => some ("Edge frame has no column '" ++ name.display ++ "'.")
  | .scripted message => some message
  | .noObject name => some name
  | _ => none

end Error
end EvolvingGraph
