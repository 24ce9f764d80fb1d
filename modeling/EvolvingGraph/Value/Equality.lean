/-
  EvolvingGraph.Value.Equality
  ────────────────────────────
  **WHEN TWO VALUES ARE EQUAL, AND WHEN ASKING FAILS.**

  Numbers are compared by their exact numerical value, whatever their type;
  text by its characters; tuples and lists item by item.  NaN equals nothing,
  and an incomparable object makes the comparison itself fail.  Inside a tuple
  or a list an item is first recognised as the very same object, and only then
  compared.

  A flag is compared with more care (`Value.coincides`): where the comparison
  fails because it makes no sense, two flags count as equal when they are the
  same object.

  Main statements:
    * `equals_incomparable_left` — an incomparable object makes the comparison fail;
    * `coincides_incomparable_self` — a flag recognises itself.
-/
import EvolvingGraph.Value.Key

namespace EvolvingGraph.Value

/-- Whether two values that may differ from themselves are the same object. -/
def isSameObject : Value → Value → Bool
  | .incomparable a _, .incomparable b _ => a == b
  | .nan a, .nan b => a == b
  | _, _ => false

/-- Equality of two values of which neither is a collection, a view or an
incomparable object. -/
def scalarEquals (x y : Value) : Bool :=
  match x, y with
  | .null, .null => true
  | .str a, .str b => a == b
  | _, _ =>
    match x.numberKey?, y.numberKey? with
    | some a, some b => a == b
    | _, _ => false

mutual

/-- Equality of values.  Lists of different lengths are told apart at once,
tuples only after their common items. -/
def equals : Value → Value → Except ComparisonFault Bool
  | .incomparable _ fault, _ => .error fault
  | x, y =>
    match x, y with
    | _, .incomparable _ fault => .error fault
    | .list xs, .list ys => if xs.length = ys.length then itemsEqual xs ys else .ok false
    | .tuple xs, .tuple ys => do
      let common ← itemsEqual xs ys
      return common && xs.length == ys.length
    | .edge g id _ _, .edge h id' _ _ => if g = h then equals id id' else .ok false
    | x, y => .ok (scalarEquals x y)

/-- Equality of the items that two sequences have in common. -/
def itemsEqual : List Value → List Value → Except ComparisonFault Bool
  | x :: xs, y :: ys =>
    if isSameObject x y then itemsEqual xs ys
    else do
      let same ← equals x y
      if same then itemsEqual xs ys else return false
  | _, _ => .ok true

end

/-- Whether two flags count as equal.  A comparison that makes no sense for the
two objects falls back to their identity; any other failure is passed on. -/
def coincides (x y : Value) : Except ComparisonFault Bool :=
  match equals x y with
  | .error .runtime => .error .runtime
  | .error _ => .ok (isSameObject x y)
  | .ok same => .ok same

/-- Whether a value is among others: the very same object, or equal to one. -/
def isAmong (x : Value) : List Value → Except ComparisonFault Bool
  | [] => .ok false
  | y :: rest => do
    if isSameObject x y then return true
    let same ← equals y x
    if same then return true else isAmong x rest

theorem equals_incomparable_left (name : String) (fault : ComparisonFault) (y : Value) :
    equals (.incomparable name fault) y = .error fault := by unfold equals; rfl

theorem coincides_incomparable_self (name : String) (fault : ComparisonFault)
    (h : fault ≠ .runtime) :
    coincides (.incomparable name fault) (.incomparable name fault) = .ok true := by
  unfold coincides
  rw [equals_incomparable_left]
  cases fault <;> simp_all [isSameObject]

end EvolvingGraph.Value
