/-
  EvolvingGraph.Table.Column
  ──────────────────────────
  **COLUMNS OF A TABLE, AND HOW THEIR CELLS ARE MADE ALIKE.**

  A cell without a value holds nothing or NaN; both count as missing.  A column
  is given one type where that is possible: numbers that are not all whole
  become doubles and their missing cells NaN, text keeps its type with NaN for
  what is missing, and everything else stays as it is.  Whole numbers become
  doubles only where all of them fit the same machine word.

  Main statements:
    * `normalised_of_allInts` — a column of whole numbers is left alone;
    * `normalised_length` — no cell is lost.
-/
import EvolvingGraph.Value.Basic

namespace EvolvingGraph.Column

/-- Whether a cell has no value. -/
def isMissing : Value → Bool
  | .null | .nan _ => true
  | _ => false

def isInt : Value → Bool
  | .int _ => true
  | _ => false

/-- Whether a cell holds a number; truth values are none. -/
def isNumber : Value → Bool
  | .int _ | .float _ => true
  | _ => false

def isText : Value → Bool
  | .str _ => true
  | _ => false

/-- Whether the whole numbers among some cells all lie in a range. -/
def intsWithin (low high : Int) (cells : List Value) : Bool :=
  cells.all fun
    | .int n => low ≤ n && n < high
    | _ => true

/-- Whether the whole numbers of a column fit signed or unsigned words of 64 bits. -/
def intsFitWord (cells : List Value) : Bool :=
  intsWithin (-0x8000000000000000) 0x8000000000000000 cells
    || intsWithin 0 0x10000000000000000 cells

/-- A cell among doubles: a number as a double, anything else as NaN. -/
def asDouble (mark : Nat) : Value → Value
  | .int n => .float (.round (n < 0) n.natAbs 1)
  | .float x => .float x
  | _ => .nan mark

/-- The cells of a column made alike.  Each NaN among doubles is a number
object of its own and gets its mark from `firstMark` on; the NaN that stands
for missing text is always the same. -/
def normalised (firstMark : Nat) (cells : List Value) : List Value :=
  let present := cells.filter (!isMissing ·)
  let doubles := cells.mapIdx fun row cell => asDouble (firstMark + row) cell
  if present.isEmpty then
    if cells.all (·.isNull) then cells else doubles
  else if present.all isNumber then
    if cells.all isInt || !intsFitWord present then cells else doubles
  else if present.all isText then
    cells.map fun cell => if isMissing cell then .nan 0 else cell
  else cells

theorem normalised_length (firstMark : Nat) (cells : List Value) :
    (normalised firstMark cells).length = cells.length := by
  simp only [normalised]
  split
  · split <;> simp
  · split
    · split <;> simp
    · split <;> simp

theorem isNumber_of_isInt {v : Value} (h : isInt v = true) : isNumber v = true := by
  cases v <;> simp_all [isInt, isNumber]

theorem not_isMissing_of_isInt {v : Value} (h : isInt v = true) : isMissing v = false := by
  cases v <;> simp_all [isInt, isMissing]

theorem normalised_of_allInts {cells : List Value} (firstMark : Nat)
    (h : ∀ v ∈ cells, isInt v = true) (hne : cells ≠ []) : normalised firstMark cells = cells := by
  have hpresent : cells.filter (!isMissing ·) = cells :=
    List.filter_eq_self.2 fun v hv => by simp [not_isMissing_of_isInt (h v hv)]
  have hnumbers : cells.all isNumber = true :=
    List.all_eq_true.2 fun v hv => isNumber_of_isInt (h v hv)
  have hints : cells.all isInt = true := List.all_eq_true.2 h
  simp [normalised, hpresent, hnumbers, hints, hne]

end EvolvingGraph.Column
