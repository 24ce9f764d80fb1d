/-
  EvolvingGraph.Value.Number
  ──────────────────────────
  **VALUES READ AS NUMBERS.**

  There are three readings.  A matrix entry may be anything that converts to a
  double (`Value.toDouble`): also text that spells a number, and nothing, which
  reads as NaN.  The weight of an edge must be a number proper
  (`Value.readWeight`); booleans, text and NaN are refused.  The bound on the
  number of steps of a run is compared with whole numbers (`Limit.ofValue`).

  Main statement: `Limit.allows_iff` — which calls a limit allows.
-/
import EvolvingGraph.Binary64.Literal
import EvolvingGraph.Error

namespace EvolvingGraph

namespace Value

/-! ## §1. Entries of matrices. -/

/-- The double nearest to a whole number. -/
def doubleOfInt (n : Int) : Except ConversionFault Double :=
  match Real64.ofInt? n with
  | some x => .ok (.real x)
  | none => .error .tooLarge

/-- The double that a value converts to. -/
def toDouble : Value → Except ConversionFault Double
  | .null => .ok .nan
  | .bool b => .ok (.real (if b then .one else .zero))
  | .int n => doubleOfInt n
  | .float x => .ok (.real x)
  | .nan _ => .ok .nan
  | .str s =>
    match Double.ofText? s with
    | some x => .ok x
    | none => .error .notNumeral
  | .tuple _ | .list _ => .error .notNumeral
  | .incomparable .. | .edge .. => .error .wrongType

/-- Whether a value has a negative: numbers and truth values do. -/
def isNegatable : Value → Bool
  | .bool _ | .int _ | .float _ | .nan _ => true
  | _ => false

/-! ## §2. Weights of edges. -/

/-- What a value says as a weight. -/
inductive WeightReading where
  /-- There is none; the default counts. -/
  | missing
  | number (x : Real64)
  | tooLarge
  | nan
  | notNumber

/-- A value read as the weight of an edge. -/
def readWeight : Value → WeightReading
  | .null => .missing
  | .int n =>
    match Real64.ofInt? n with
    | some x => .number x
    | none => .tooLarge
  | .float x => .number x
  | .nan _ => .nan
  | _ => .notNumber

end Value

/-! ## §3. Bounds on the number of steps. -/

/-- How many steps a run may take. -/
inductive Limit where
  | unlimited
  | calls (n : Nat)
  deriving DecidableEq, Repr

namespace Limit

/-- Whether one more call is allowed after the given number of calls. -/
def allows : Limit → Nat → Bool
  | .unlimited, _ => true
  | .calls n, made => made < n

theorem allows_iff {n made : Nat} : (Limit.calls n).allows made = true ↔ made < n := by
  simp [allows]

/-- The number of whole numbers from 0 that lie below a number. -/
def below (x : Real64) : Limit :=
  if x.negative then .calls 0
  else if x.isInfinite then .unlimited
  else .calls ((x.units + Real64.unitsPerOne - 1) / Real64.unitsPerOne)

/-- The bound that a value sets.  Nothing sets none; a negative number is
refused, and so is what cannot be ordered among numbers.  NaN allows no call. -/
def ofValue : Value → Except Error Limit
  | .null => .ok .unlimited
  | .bool b => .ok (.calls (if b then 1 else 0))
  | .int n => if n < 0 then .error .negativeLimit else .ok (.calls n.toNat)
  | .float x => if x < Real64.zero then .error .negativeLimit else .ok (below x)
  | .nan _ => .ok (.calls 0)
  | _ => .error .unordered

end Limit
end EvolvingGraph
