/-
  EvolvingGraph.Generation.Run
  ────────────────────────────
  **COMPLETE RUNS.**

  A complete run begins a generator, pulls it until it says that no more is to
  come or a limit is reached, and ends it; once begun, it is ended in any case.
  A sink can be attached for the duration of the run; afterwards the list of
  sinks is what it was.

  Main statement: `exec_attachFor_of_mem` — a sink that is attached already stays as it is.
-/
import EvolvingGraph.Delivery
import EvolvingGraph.Generation.Lifecycle

namespace EvolvingGraph

/-- Pull until no more is to come or the limit is reached, `fuel` times at
most: how many pulls said that more is to come. -/
def pullUpTo (hooks : Hooks) (g : GeneratorRef) (limit : Limit) :
    (fuel calls : Nat) → Run Nat
  | 0, _ => throw .nestingTooDeep
  | fuel + 1, calls => do
    if limit.allows calls then
      if ← pull hooks g then
        return (← pullUpTo hooks g limit fuel (calls + 1)) + 1
      else return 0
    else return 0

/-- The number of pulls that a limit needs at most, one more for noticing it. -/
def Limit.fuel (patience : Nat) : Limit → Nat
  | .unlimited => patience
  | .calls n => n + 1

/-- A complete run: how many steps said that more is to come. -/
def completeRun (hooks : Hooks) (patience : Nat) (g : GeneratorRef) (limit : Limit) : Run Nat := do
  beginRun hooks g
  Run.ensuring (pullUpTo hooks g limit (limit.fuel patience) 0) (endRun hooks g)

/-- Attach a sink to a generator while something is done, unless it is attached
anyway.  A generator cannot be its own sink. -/
def attachFor {α : Type} (g : GeneratorRef) (sink : Option SinkRef) (operation : Run α) :
    Run α := do
  match sink with
  | none => operation
  | some s =>
    if s ∈ (← World.generator g).emitter.sinks then operation
    else if s = .generator g then throw .ownSink
    else
      World.modifyGenerator g fun x => { x with emitter := x.emitter.attach s }
      Run.ensuring operation
        (World.modifyGenerator g fun x => { x with emitter := x.emitter.detach s })

theorem exec_attachFor_of_mem {α : Type} {g : GeneratorRef} {s : SinkRef} (operation : Run α)
    {w : World} (h : s ∈ (w.generators.get g.index).emitter.sinks) :
    (attachFor g (some s) operation).exec w = operation.exec w := by
  simp [attachFor, World.generator, h]

/-- A complete run into a sink. -/
def generateInto (hooks : Hooks) (patience : Nat) (g : GeneratorRef) (sink : Option SinkRef)
    (limit : Limit) : Run Nat :=
  attachFor g sink (completeRun hooks patience g limit)

end EvolvingGraph
