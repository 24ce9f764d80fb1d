/-
  EvolvingGraph.Proofs.Generation.Protocol
  ────────────────────────────────────────
  **A GENERATOR ACCEPTS EXACTLY THE CALLS OF COMPLETE RUNS.**

  From its making on, a generator is called in whatever order its callers like,
  and other things happen in between.  Its hooks are quiet: they may send events
  and fail, but leave the calls to others.  Then the calls that come through are
  those of complete runs, one after the other, and a call that would not continue
  them is refused before anything is done.

  What is told of the calls are their passages (`Calls`), and these are as the
  life of the generator permits.

  Main statements:
    * `Calls.permits` — the passages of calls can follow each other;
    * `generator_accepts_runs` — which calls are refused, what the phase and the
      number of steps are, and when steps are made.
-/
import EvolvingGraph.Proofs.Generation.Announcing
import EvolvingGraph.Proofs.Generation.Order

namespace EvolvingGraph

/-! ## §1. Calls with other things in between. -/

/-- Calls to a generator, one after the other, and what came of them.  In between
anything may happen that leaves the life of the generator to its callers. -/
inductive Calls (hooks : Hooks) (g : GeneratorRef) (calm : World → Prop) (w : World) :
    List Passage → World → Prop where
  | start : Calls hooks g calm w [] w
  | called {ps : List Passage} {v : World} (before : Calls hooks g calm w ps v)
      (c : GeneratorCall) :
      Calls hooks g calm w (ps ++ [c.passage hooks g v]) ((c.run hooks g).exec v).2
  | elsewhere {ps : List Passage} {v v' : World} (before : Calls hooks g calm w ps v)
      (still : calm v') (same : v'.life g = v.life g) : Calls hooks g calm w ps v'

/-- Make calls, one after the other: what comes of them, and the world afterwards. -/
def callAll (hooks : Hooks) (g : GeneratorRef) (w : World) :
    List GeneratorCall → List Passage × World
  | [] => ([], w)
  | c :: cs =>
    let rest := callAll hooks g ((c.run hooks g).exec w).2 cs
    (c.passage hooks g w :: rest.1, rest.2)

theorem callAll_append (hooks : Hooks) (g : GeneratorRef) (w : World)
    (cs cs' : List GeneratorCall) :
    callAll hooks g w (cs ++ cs')
      = ((callAll hooks g w cs).1 ++ (callAll hooks g (callAll hooks g w cs).2 cs').1,
        (callAll hooks g (callAll hooks g w cs).2 cs').2) := by
  induction cs generalizing w with
  | nil => rfl
  | cons c cs ih =>
    simp only [List.cons_append, callAll]
    rw [ih]

namespace Calls

variable {hooks : Hooks} {g : GeneratorRef} {calm : World → Prop} {w w' : World} {ps : List Passage}

theorem calm_end (h : Calls hooks g calm w ps w') (hquiet : hooks.Quiet g calm) (hw : calm w) :
    calm w' := by
  induction h with
  | start => exact hw
  | called before c ih => exact (hquiet.life_run c ih).1
  | elsewhere before still same ih => exact still

theorem life_eq (h : Calls hooks g calm w ps w') (hquiet : hooks.Quiet g calm) (hw : calm w) :
    w'.life g = (w.life g).passAll ps := by
  induction h with
  | start => rfl
  | called before c ih =>
    rw [(hquiet.life_run c (before.calm_end hquiet hw)).2, Life.passAll_concat, ih]
  | elsewhere before still same ih => exact same.trans ih

/-- **The passages of calls can follow each other.** -/
theorem permits (h : Calls hooks g calm w ps w') (hquiet : hooks.Quiet g calm) (hw : calm w) :
    (w.life g).Permits ps := by
  induction h with
  | start => trivial
  | @called ps v before c ih =>
    refine Life.permits_concat.2 ⟨ih, ?_⟩
    rw [← before.life_eq hquiet hw]
    exact GeneratorCall.passage_possible hooks g v c
  | elsewhere before still same ih => exact ih

/-- Calls with nothing in between. -/
theorem of_callAll (hooks : Hooks) (g : GeneratorRef) (calm : World → Prop) (w : World)
    (cs : List GeneratorCall) :
    Calls hooks g calm w (callAll hooks g w cs).1 (callAll hooks g w cs).2 := by
  induction cs using List.reverseRecOn with
  | nil => exact .start
  | append_singleton cs c ih =>
    rw [callAll_append]
    exact ih.called c

end Calls

/-! ## §2. Refusals. -/

section Refusals

variable {hooks : Hooks} {g : GeneratorRef} {w : World} {c : GeneratorCall}

/-- A call out of order fails and does nothing, whatever the hooks are. -/
theorem GeneratorCall.exec_run_misplaced (h : c.Misplaced (w.life g).phase) :
    ∃ e, e.kind = .generatorState ∧ ∀ hooks, (c.run hooks g).exec w = (.error e, w)
      ∧ c.passage hooks g w = .refused c e := by
  obtain ⟨e, he⟩ := admission_refuses_iff.2 h
  refine ⟨e, kind_of_refuses he, fun hooks => ?_⟩
  unfold passage
  rw [exec_run, he]
  exact ⟨rfl, rfl⟩

theorem GeneratorCall.misplaced_begin_iff {p : Phase} : begin.Misplaced p ↔ p.inRun = true := by
  cases p <;> simp [Misplaced, Phase.inRun]

/-- An exhausted generator answers at once, whatever the hooks are. -/
theorem exec_pull_exhausted (h : (w.life g).phase = .exhausted) (hooks : Hooks) :
    (pull hooks g).exec w = (.ok false, w) := by
  rw [exec_pull, h]
  rfl

/-- A call in order does not fail for being out of order, unless its hook does. -/
theorem GeneratorCall.misplaced_of_error {e : Error} (he : e.kind = .generatorState)
    (hown : ∀ e, ((hooks.hook c).exec (c.prepared g w)).1 = .error e → e.kind ≠ .generatorState)
    (h : ((c.run hooks g).exec w).1 = .error e) : c.Misplaced (w.life g).phase := by
  rw [exec_run] at h
  cases hadmission : c.admission (w.life g).phase with
  | refuses e' => exact admission_refuses_iff.1 ⟨e', hadmission⟩
  | idles =>
    rw [hadmission] at h
    cases h
  | runs =>
    rw [hadmission] at h
    dsimp only at h
    rcases hexec : (hooks.hook c).exec (c.prepared g w) with ⟨e' | more, v⟩ <;>
      rw [hexec] at h hown <;> cases h
    exact absurd he (hown e rfl)

end Refusals

/-! ## §3. The calls that are accepted. -/

/-- How a generator stands after calls that it has had since it was made. -/
structure AcceptsRuns (hooks : Hooks) (g : GeneratorRef) (w : World) (ps : List Passage) :
    Prop where
  /-- A call fails for being out of order just in these phases. -/
  refused_iff : ∀ c : GeneratorCall,
    (∃ e, ((c.run hooks g).exec w).1 = .error e ∧ e.kind = .generatorState)
      ↔ c.Misplaced (w.life g).phase
  /-- The other calls are those that continue complete runs. -/
  accepted_iff : ∀ c : GeneratorCall, ¬ c.Misplaced (w.life g).phase
    ↔ ∃ rest, (completed ps).map Prod.fst ++ c :: rest ∈ GeneratorCall.runs
  /-- A refused call runs no hook and changes nothing. -/
  refused : ∀ c : GeneratorCall, c.Misplaced (w.life g).phase →
    ∃ e, ∀ hooks, (c.run hooks g).exec w = (.error e, w)
  /-- Nor does the pull of an exhausted generator. -/
  exhausted : (w.life g).phase = .exhausted → ∀ hooks, (pull hooks g).exec w = (.ok false, w)
  phase_eq : (w.life g).phase = (completed ps).foldl Phase.next .notStarted
  steps_within_runs : StepsWithinRuns ps
  stepCount_eq : (w.life g).stepCount = stepsSinceBegin ps

/-- **A generator with quiet hooks accepts exactly the calls of complete runs.** -/
theorem generator_accepts_runs {hooks : Hooks} {g : GeneratorRef} {calm : World → Prop}
    {w w' : World} {ps : List Passage} (hquiet : hooks.Quiet g calm)
    (hown : ∀ (c : GeneratorCall) (v : World) (e : Error), calm v →
      ((hooks.hook c).exec v).1 = .error e → e.kind ≠ .generatorState)
    (hcalm : calm w) (hnew : w.life g = ⟨.notStarted, 0⟩) (h : Calls hooks g calm w ps w') :
    AcceptsRuns hooks g w' ps := by
  have hpermits := h.permits hquiet hcalm
  have hlife := h.life_eq hquiet hcalm
  have hcalm' := h.calm_end hquiet hcalm
  rw [hnew] at hpermits hlife
  have hunderway : GeneratorCall.underway ((completed ps).map Prod.fst)
      = some (w'.life g).phase.inRun := by
    rw [hlife]
    exact hpermits.underway_eq
  refine ⟨fun c => ⟨?_, fun hc => ?_⟩, fun c => ?_, fun c hc => ?_, exec_pull_exhausted, ?_,
    hpermits.stepsWithinRuns rfl, ?_⟩
  · rintro ⟨e, he, hkind⟩
    exact GeneratorCall.misplaced_of_error hkind
      (fun e' => hown c _ e' (hquiet.prepared c hcalm')) he
  · obtain ⟨e, hkind, hexec⟩ := GeneratorCall.exec_run_misplaced hc
    exact ⟨e, by rw [(hexec hooks).1], hkind⟩
  · have hcontinued : (∃ rest, (completed ps).map Prod.fst ++ c :: rest ∈ GeneratorCall.runs)
        ↔ ∃ rest, (completed ps).map Prod.fst ++ [c] ++ rest ∈ GeneratorCall.runs :=
      exists_congr fun rest => by rw [List.append_cons]
    rw [hcontinued, GeneratorCall.exists_append_mem_runs_iff, GeneratorCall.underway,
      List.foldl_concat, ← GeneratorCall.underway, hunderway]
    exact not_congr GeneratorCall.misplaced_iff
  · obtain ⟨e, -, hexec⟩ := GeneratorCall.exec_run_misplaced hc
    exact ⟨e, fun hooks => (hexec hooks).1⟩
  · rw [hlife]
    exact hpermits.phase_eq
  · rw [hlife]
    exact Life.stepCount_passAll rfl ps

open Announcing Session in
/-- Two runs are begun; of the other calls, some are refused and one fails. -/
theorem generator_accepts_runs_twoRuns :
    let hooks := scriptHooks standardHost ⟨0⟩
    let r := callAll hooks ⟨0⟩ (stage threeSteps)
      [.pull, .begin, .pull, .begin, .pull, .pull, .pull, .finish, .finish, .begin]
    AcceptsRuns hooks ⟨0⟩ r.2 r.1
    ∧ completed r.1
      = [(.begin, true), (.pull, true), (.pull, false), (.pull, false), (.finish, true),
        (.begin, true)]
    ∧ r.2.life ⟨0⟩ = ⟨.running, 0⟩ := by
  have hscript := announces_threeSteps
  refine ⟨?_, by decide +kernel, by decide +kernel⟩
  exact generator_accepts_runs (hscript.quiet 399 ⟨0⟩)
    (fun c v e hv he => hscript.failure hv c he) (stages_stage 398 threeSteps) rfl
    (.of_callAll ..)

end EvolvingGraph
