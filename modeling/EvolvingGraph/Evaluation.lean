/-
  EvolvingGraph.Evaluation
  ────────────────────────
  **FROM TERMS TO VALUES.**

  A term is evaluated when its step is played: a reference becomes the edge view
  that the name stands for at that time, and each NaN becomes a number object
  that has not been there before.

  Main statement: `evaluate_value` — a term that is a value stands for it.
-/
import EvolvingGraph.World

namespace EvolvingGraph

/-- The value that a name refers to: only edge views are values. -/
def referenced (name : String) : Run Value := do
  match ← World.object name with
  | .view e => return e.toValue
  | _ => throw .noSuchOperation

mutual

/-- The value of a term. -/
def evaluate : Term → Run Value
  | .value v => pure v
  | .nan => return .nan (← World.reserveMarks 1)
  | .reference name => referenced name
  | .tuple items => return .tuple (← evaluateAll items)
  | .list items => return .list (← evaluateAll items)

/-- The values of terms, in order. -/
def evaluateAll : List Term → Run (List Value)
  | [] => pure []
  | t :: rest => do
    let v ← evaluate t
    return v :: (← evaluateAll rest)

end

theorem evaluate_value (v : Value) : evaluate (.value v) = pure v := rfl

/-- The value of a term, or a default where none is written. -/
def evaluateOr (default : Value) : Option Term → Run Value
  | some t => evaluate t
  | none => pure default

/-- The pairs of values of attribute terms. -/
def evaluatePairs (terms : AttributeTerms) : Run (List (Value × Value)) :=
  terms.mapM fun (name, value) => return (← evaluate name, ← evaluate value)

/-- Attributes from their terms.  A name that cannot be used as one is refused. -/
def evaluateAttributes (terms : AttributeTerms) : Run Attributes := do
  match Attributes.ofPairs? (← evaluatePairs terms) with
  | some attributes => return attributes
  | none => throw .unhashable

end EvolvingGraph
