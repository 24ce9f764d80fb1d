/-
  EvolvingGraph.Generation.Scripted
  ─────────────────────────────────
  **GENERATORS THAT PLAY A SCRIPT.**

  A scripted generator plays its opening steps when a run begins, one entry of
  its script at each pull, and its closing steps when the run ends.  It moves
  on to the next entry before it plays the one it has reached.
-/
import EvolvingGraph.Evaluation
import EvolvingGraph.Generation.Run

namespace EvolvingGraph

/-- The entry that a generator has reached. -/
def Generator.entryAt (x : Generator) : Option (ScriptEntry Step) := x.script.entries[x.position]?

/-- Play one entry and say whether more is to come. -/
def playEntry (host : Host) (g : GeneratorRef) : Run Bool := do
  let x ← World.generator g
  match x.entryAt with
  | none => return (← evaluate x.script.tail).isTruthy
  | some entry =>
    World.modifyGenerator g fun x => { x with position := x.position + 1 }
    host.play (some (.sink (.generator g))) entry.actions
    return (← evaluate entry.more).isTruthy

/-- What a scripted generator does. -/
def scriptHooks (host : Host) (g : GeneratorRef) : Hooks where
  opening := do
    World.modifyGenerator g fun x => { x with position := 0 }
    host.play (some (.sink (.generator g))) (← World.generator g).script.opening
  step := playEntry host g
  closing := do
    host.play (some (.sink (.generator g))) (← World.generator g).script.closing

end EvolvingGraph
