/-
  EvolvingGraph.Value.Printer
  ───────────────────────────
  **HOW VALUES ARE WRITTEN IN MESSAGES.**

  `Value.inspect` shows a value so that its type can be seen: text stands in
  quotes, numbers that are not whole types show a point, tuples and lists their
  brackets.  `Value.display` is the same except that text stands for itself.
-/
import EvolvingGraph.Value.Basic
import EvolvingGraph.Binary64.Shortest
import EvolvingGraph.Text.Quoted

namespace EvolvingGraph

namespace Value

mutual

/-- A value with its type in view. -/
def inspect : Value → String
  | .null => "None"
  | .bool true => "True"
  | .bool false => "False"
  | .int n => toString n
  | .float x => plainDecimal.write (.real x)
  | .nan _ => plainDecimal.write .nan
  | .str s => Text.quoted s
  | .tuple items =>
    match items with
    | [item] => "(" ++ inspect item ++ ",)"
    | items => "(" ++ inspectItems items ++ ")"
  | .list items => "[" ++ inspectItems items ++ "]"
  | .incomparable name _ => "<amb " ++ name ++ ">"
  | .edge _ id source target =>
    "Edge(" ++ inspect id ++ ", " ++ inspect source ++ ", " ++ inspect target ++ ")"

/-- Items one after the other, with commas between them. -/
def inspectItems : List Value → String
  | [] => ""
  | v :: rest => match rest with
    | [] => inspect v
    | _ => inspect v ++ ", " ++ inspectItems rest

end

/-- A value as it reads in running text. -/
def display : Value → String
  | .str s => s
  | v => v.inspect

end Value
end EvolvingGraph
