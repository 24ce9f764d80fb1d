/-
  EvolvingGraph.Generation.Lifecycle
  ──────────────────────────────────
  **THE LIFE OF A GENERATOR: BEGIN, PULL, END.**

  A generator is begun, pulled any number of times, and ended; then it may be
  begun again.  What it does at each of the three is its own matter (`Hooks`);
  here is the order in which they may be called.  The phase is written after
  the hook has returned, so a hook that fails leaves the generator where it was.

  A generator that has said that no more is to come is exhausted: further pulls
  return at once.

  Main statements:
    * `Phase.mayBegin_iff`, `Phase.mayEnd_iff` — when a run can begin and end.
-/
import EvolvingGraph.World

namespace EvolvingGraph

/-- What a generator does when it is begun, pulled, and ended.  A pull says
whether more is to come. -/
structure Hooks where
  opening : Run Unit
  step : Run Bool
  closing : Run Unit

namespace Phase

/-- What stands in the way of beginning. -/
def refusesBegin : Phase → Option Error
  | .running | .exhausted => some .begunTwice
  | .notStarted | .ended => none

/-- What stands in the way of pulling. -/
def refusesPull : Phase → Option Error
  | .notStarted => some .pulledBeforeBegin
  | .ended => some .pulledAfterEnd
  | .running | .exhausted => none

/-- What stands in the way of ending. -/
def refusesEnd : Phase → Option Error
  | .notStarted => some .endedBeforeBegin
  | .ended => some .endedTwice
  | .running | .exhausted => none

theorem mayBegin_iff {p : Phase} : p.refusesBegin = none ↔ p = .notStarted ∨ p = .ended := by
  cases p <;> simp [refusesBegin]

theorem mayEnd_iff {p : Phase} : p.refusesEnd = none ↔ p = .running ∨ p = .exhausted := by
  cases p <;> simp [refusesEnd]

end Phase

/-- Fail if something stands in the way. -/
def refuse : Option Error → Run Unit
  | some e => throw e
  | none => pure ()

/-- Begin a run. -/
def beginRun (hooks : Hooks) (g : GeneratorRef) : Run Unit := do
  let generator ← World.generator g
  refuse generator.phase.refusesBegin
  World.note (.runBegun generator.emitter.id)
  World.modifyGenerator g fun x => { x with stepCount := 0 }
  hooks.opening
  World.modifyGenerator g fun x => { x with phase := .running }

/-- Pull once: whether more is to come.  An exhausted generator does nothing. -/
def pull (hooks : Hooks) (g : GeneratorRef) : Run Bool := do
  let generator ← World.generator g
  refuse generator.phase.refusesPull
  if generator.phase = .exhausted then return false
  let more ← hooks.step
  World.modifyGenerator g fun x => { x with stepCount := x.stepCount + 1 }
  if !more then World.modifyGenerator g fun x => { x with phase := .exhausted }
  return more

/-- End a run. -/
def endRun (hooks : Hooks) (g : GeneratorRef) : Run Unit := do
  let generator ← World.generator g
  refuse generator.phase.refusesEnd
  hooks.closing
  World.modifyGenerator g fun x => { x with phase := .ended }
  let ended ← World.generator g
  World.note (.runEnded ended.emitter.id ended.stepCount)

end EvolvingGraph
