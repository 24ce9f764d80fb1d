/-
  EvolvingGraph.Value.Key
  ───────────────────────
  **WHICH VALUES NAME THE SAME THING.**

  Graphs file their elements and attributes under values, and some different
  values name the same element: 1, 1.0 and true do, and so do the tuples built
  from them.  A `Key` is what those values have in common.  Lists and
  incomparable objects have none and cannot be used as names; an `Identifier`
  is a value together with its key.

  Main statements:
    * `Identifier.ofValue?_eq_none_iff` — the values without a key are the
      ones that cannot be identifiers;
    * `key?_negative_zero` — values of different types with one key.
-/
import EvolvingGraph.Value.Basic

namespace EvolvingGraph

/-- What a value is filed under.  A tuple is filed under the pairs of its
items' keys; every number that is whole is filed as an integer. -/
inductive Key where
  | null
  | int (n : Int)
  | float (x : Real64)
  | nan (mark : Nat)
  | text (s : String)
  | nil
  | cons (head tail : Key)
  | edge (graph : GraphRef) (id : Key)
  deriving DecidableEq, Repr

namespace Value

mutual

/-- The key of a value, if it has one. -/
def key? : Value → Option Key
  | .null => some .null
  | .bool b => some (.int (if b then 1 else 0))
  | .int n => some (.int n)
  | .float x => some (match x.toInt? with
    | some n => .int n
    | none => .float x)
  | .nan mark => some (.nan mark)
  | .str s => some (.text s)
  | .tuple items => itemsKey? items
  | .list _ => none
  | .incomparable .. => none
  | .edge graph id _ _ => (key? id).map (.edge graph)

/-- The key of a tuple with the given items. -/
def itemsKey? : List Value → Option Key
  | [] => some .nil
  | v :: rest =>
    match key? v, itemsKey? rest with
    | some k, some ks => some (.cons k ks)
    | _, _ => none

end

theorem key?_negative_zero : key? (.float Real64.zero.neg) = key? (.bool false) := by
  decide +kernel

/-- The key of a value that is a number. -/
def numberKey? : Value → Option Key
  | v@(.bool _) | v@(.int _) | v@(.float _) => v.key?
  | _ => none

end Value

/-- A value that can name something, together with its key. -/
structure Identifier where
  value : Value
  key : Key
  key?_value : value.key? = some key

namespace Identifier

/-- A value as an identifier, if it has a key. -/
def ofValue? (v : Value) : Option Identifier :=
  match h : v.key? with
  | some k => some ⟨v, k, h⟩
  | none => none

theorem ofValue?_eq_none_iff {v : Value} : ofValue? v = none ↔ v.key? = none := by
  unfold ofValue?
  split <;> simp_all

/-- Text names something. -/
def ofText (s : String) : Identifier := ⟨.str s, .text s, rfl⟩

/-- A whole number names something. -/
def ofInt (n : Int) : Identifier := ⟨.int n, .int n, rfl⟩

instance : Inhabited Identifier := ⟨ofInt 0⟩

/-- The pair of two identifiers names something. -/
def pair (a b : Identifier) : Identifier :=
  ⟨.tuple [a.value, b.value], .cons a.key (.cons b.key .nil), by
    simp [Value.key?, Value.itemsKey?, a.key?_value, b.key?_value]⟩

end Identifier
end EvolvingGraph
