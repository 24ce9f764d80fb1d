/-
  EvolvingGraph.Proofs.Generation.Calls
  ─────────────────────────────────────
  **WHAT COMES OF A CALL TO A GENERATOR.**

  A generator is called to begin, to be pulled and to finish.  The phase that it
  is in refuses the call, lets it idle, or admits it; an admitted call prepares
  the world, runs its hook, and writes the life of the generator when the hook
  has returned.  All calls are of this one form, whatever the hooks do.

  Hooks are quiet if they leave the life of the generator to its callers.  Under
  quiet hooks a call moves the life as its `Passage` says.

  Main statements:
    * `GeneratorCall.exec_run` — a call, by what the phase says to it;
    * `GeneratorCall.admission_eq_runs_iff`, `GeneratorCall.admission_refuses_iff` —
      when a call is admitted, and when it is refused;
    * `Hooks.Quiet.life_run` — what a call does to the life of a generator.
-/
import EvolvingGraph.Generation.Run
import EvolvingGraph.Proofs.Delivery.Commit

namespace EvolvingGraph

/-! ## §1. The generators of a world. -/

theorem Heap.set_set {α : Type} (h : Heap α) (i : Nat) (a b : α) :
    (h.set i a).set i b = h.set i b := by
  unfold Heap.set
  rw [List.set_set]

/-- How far a generator has come: its phase, and the steps of its run. -/
@[ext]
structure Life where
  phase : Phase
  stepCount : Nat
  deriving DecidableEq, Repr

namespace World

/-- The generator at a reference. -/
def generatorAt (w : World) (g : GeneratorRef) : Generator := w.generators.get g.index

/-- Whether a reference points to a generator of the world. -/
def HasGenerator (w : World) (g : GeneratorRef) : Prop := g.index < w.generators.size

/-- How far a generator has come. -/
def life (w : World) (g : GeneratorRef) : Life :=
  ⟨(w.generatorAt g).phase, (w.generatorAt g).stepCount⟩

/-- The world with a generator changed. -/
def withGenerator (w : World) (g : GeneratorRef) (f : Generator → Generator) : World :=
  { w with generators := w.generators.set g.index (f (w.generatorAt g)) }

/-- The world with another life of a generator. -/
def withLife (w : World) (g : GeneratorRef) (life : Life) : World :=
  w.withGenerator g fun x => { x with phase := life.phase, stepCount := life.stepCount }

/-- The world with one more line in the log. -/
def logged (w : World) (entry : LogEntry) : World := { w with log := w.log ++ [entry] }

variable {w : World} {g : GeneratorRef}

theorem generatorAt_withGenerator (h : w.HasGenerator g) (f : Generator → Generator) :
    (w.withGenerator g f).generatorAt g = f (w.generatorAt g) := Heap.get_set_self h _

theorem withGenerator_of_not_hasGenerator (h : ¬ w.HasGenerator g) (f : Generator → Generator) :
    w.withGenerator g f = w := by
  unfold withGenerator
  rw [Heap.set_of_size_le (Nat.not_lt.1 h)]

theorem hasGenerator_withGenerator_iff {g' : GeneratorRef} (f : Generator → Generator) :
    (w.withGenerator g f).HasGenerator g' ↔ w.HasGenerator g' := by
  simp [HasGenerator, withGenerator, Heap.set, Heap.size]

@[simp] theorem hasGenerator_withGenerator (f : Generator → Generator) :
    (w.withGenerator g f).HasGenerator g ↔ w.HasGenerator g := hasGenerator_withGenerator_iff f

theorem generatorAt_withGenerator_of_ne {g' : GeneratorRef} (h : g ≠ g')
    (f : Generator → Generator) : (w.withGenerator g f).generatorAt g' = w.generatorAt g' :=
  Heap.get_set_of_ne (fun hindex => h (by cases g; cases g'; exact congrArg _ hindex)) _

theorem withGenerator_withGenerator (f f' : Generator → Generator) :
    (w.withGenerator g f).withGenerator g f' = w.withGenerator g fun x => f' (f x) := by
  by_cases h : w.HasGenerator g
  · show ({ w with generators := ((w.generators.set g.index (f (w.generatorAt g))).set g.index
      (f' ((w.withGenerator g f).generatorAt g))) } : World) = _
    rw [generatorAt_withGenerator h, Heap.set_set]
    rfl
  · rw [withGenerator_of_not_hasGenerator h, withGenerator_of_not_hasGenerator h,
      withGenerator_of_not_hasGenerator h]

/-- What a change to a generator leaves as it is, is read as before, even where
there is no generator. -/
theorem emitter_stepCount_withGenerator {f : Generator → Generator}
    (hemitter : ∀ x, (f x).emitter = x.emitter) (hcount : ∀ x, (f x).stepCount = x.stepCount) :
    ((w.withGenerator g f).generatorAt g).emitter = (w.generatorAt g).emitter
      ∧ ((w.withGenerator g f).generatorAt g).stepCount = (w.generatorAt g).stepCount := by
  by_cases h : w.HasGenerator g
  · rw [generatorAt_withGenerator h]
    exact ⟨hemitter _, hcount _⟩
  · rw [withGenerator_of_not_hasGenerator h]
    exact ⟨rfl, rfl⟩

theorem withGenerator_self {f : Generator → Generator} (h : f (w.generatorAt g) = w.generatorAt g) :
    w.withGenerator g f = w := by
  unfold withGenerator
  rw [h, generatorAt, Heap.set_get]

theorem withGenerator_congr {f f' : Generator → Generator}
    (h : f (w.generatorAt g) = f' (w.generatorAt g)) :
    w.withGenerator g f = w.withGenerator g f' := by
  unfold withGenerator
  rw [h]

@[simp] theorem hasGenerator_withLife (life : Life) :
    (w.withLife g life).HasGenerator g ↔ w.HasGenerator g := hasGenerator_withGenerator _

@[simp] theorem hasGenerator_logged (entry : LogEntry) :
    (w.logged entry).HasGenerator g ↔ w.HasGenerator g := Iff.rfl

@[simp] theorem generatorAt_logged (entry : LogEntry) :
    (w.logged entry).generatorAt g = w.generatorAt g := rfl

@[simp] theorem life_logged (entry : LogEntry) : (w.logged entry).life g = w.life g := rfl

theorem life_withGenerator_of_ne {g' : GeneratorRef} (h : g ≠ g') (f : Generator → Generator) :
    (w.withGenerator g f).life g' = w.life g' := by
  unfold World.life
  rw [generatorAt_withGenerator_of_ne h]

theorem life_withLife (h : w.HasGenerator g) (life : Life) : (w.withLife g life).life g = life := by
  unfold World.life withLife
  rw [generatorAt_withGenerator h]

end World

namespace Run

@[simp] theorem exec_generator (g : GeneratorRef) (w : World) :
    exec (World.generator g) w = (.ok (w.generatorAt g), w) := rfl

@[simp] theorem exec_modifyGenerator (g : GeneratorRef) (f : Generator → Generator) (w : World) :
    exec (World.modifyGenerator g f) w = (.ok ⟨⟩, w.withGenerator g f) := rfl

theorem exec_logged (entry : LogEntry) (w : World) :
    exec (World.note entry) w = (.ok ⟨⟩, w.logged entry) := rfl

@[simp] theorem exec_cursor (c : CursorRef) (w : World) :
    exec (World.cursor c) w = (.ok (w.cursors.get c.index), w) := rfl

end Run

/-! ## §2. Calls. -/

/-- The calls that a run of a generator is made of. -/
inductive GeneratorCall where
  | begin
  | pull
  | finish
  deriving DecidableEq, Repr

/-- What a phase says to a call. -/
inductive Admission where
  | refuses (e : Error)
  /-- There is nothing more to be pulled. -/
  | idles
  | runs

namespace GeneratorCall

/-- Make a call.  Only a pull has something to say; the other calls answer true. -/
def run (hooks : Hooks) (g : GeneratorRef) : GeneratorCall → Run Bool
  | begin => do
    beginRun hooks g
    return true
  | pull => EvolvingGraph.pull hooks g
  | finish => do
    endRun hooks g
    return true

/-- What a phase says to a call. -/
def admission (p : Phase) : GeneratorCall → Admission
  | begin => (p.refusesBegin).elim .runs .refuses
  | pull => (p.refusesPull).elim (if p = .exhausted then .idles else .runs) .refuses
  | finish => (p.refusesEnd).elim .runs .refuses

/-- The calls that are out of order in a phase. -/
def Misplaced (p : Phase) : GeneratorCall → Prop
  | begin => p = .running ∨ p = .exhausted
  | pull | finish => p = .notStarted ∨ p = .ended

end GeneratorCall

/-- The hook of a call.  Only a pull has something to say. -/
def Hooks.hook (hooks : Hooks) : GeneratorCall → Run Bool
  | .begin => do
    hooks.opening
    return true
  | .pull => hooks.step
  | .finish => do
    hooks.closing
    return true

/-- The life of a generator after the hook of a call has returned. -/
def Life.settled (life : Life) (more : Bool) : GeneratorCall → Life
  | .begin => { life with phase := .running }
  | .pull => ⟨if more then life.phase else .exhausted, life.stepCount + 1⟩
  | .finish => { life with phase := .ended }

namespace GeneratorCall

/-- The world in which the hook of a call is run. -/
def prepared (g : GeneratorRef) (w : World) : GeneratorCall → World
  | begin => (w.logged (.runBegun (w.generatorAt g).emitter.id)).withLife g
    { w.life g with stepCount := 0 }
  | pull | finish => w

/-- The world after the hook of a call has returned. -/
def settled (g : GeneratorRef) (more : Bool) (w : World) (c : GeneratorCall) : World :=
  let after := w.withLife g ((w.life g).settled more c)
  match c with
  | begin | pull => after
  | finish => after.logged (.runEnded (w.generatorAt g).emitter.id (w.life g).stepCount)

variable {c : GeneratorCall} {p : Phase}

theorem admission_eq_runs_iff : c.admission p = .runs ↔ match c with
    | begin => p = .notStarted ∨ p = .ended
    | pull => p = .running
    | finish => p = .running ∨ p = .exhausted := by
  cases c <;> cases p <;>
    simp [admission, Phase.refusesBegin, Phase.refusesPull, Phase.refusesEnd]

theorem admission_eq_idles_iff : c.admission p = .idles ↔ c = pull ∧ p = .exhausted := by
  cases c <;> cases p <;>
    simp [admission, Phase.refusesBegin, Phase.refusesPull, Phase.refusesEnd]

theorem admission_refuses_iff : (∃ e, c.admission p = .refuses e) ↔ c.Misplaced p := by
  cases c <;> cases p <;>
    simp [admission, Misplaced, Phase.refusesBegin, Phase.refusesPull, Phase.refusesEnd]

/-- A refusal is a failure of its own kind. -/
theorem kind_of_refuses {e : Error} (h : c.admission p = .refuses e) : e.kind = .generatorState := by
  cases c <;> cases p <;>
    simp [admission, Phase.refusesBegin, Phase.refusesPull, Phase.refusesEnd] at h <;>
    subst h <;> rfl

end GeneratorCall

/-! ## §3. What comes of a call. -/

section Calls

variable (hooks : Hooks) (g : GeneratorRef) (w : World)

theorem exec_beginRun : (beginRun hooks g).exec w = match (w.life g).phase.refusesBegin with
    | some e => (.error e, w)
    | none => match hooks.opening.exec (GeneratorCall.begin.prepared g w) with
      | (.error e, v) => (.error e, v)
      | (.ok _, v) => (.ok (), GeneratorCall.begin.settled g true v) := by
  show _ = match (w.generatorAt g).phase.refusesBegin with
    | some e => _
    | none => _
  unfold beginRun
  simp only [Run.exec_bind, Run.exec_generator]
  cases (w.generatorAt g).phase.refusesBegin with
  | some e => rfl
  | none =>
    have hprepared : (w.logged (.runBegun (w.generatorAt g).emitter.id)).withGenerator g
        (fun x => { x with stepCount := 0 }) = GeneratorCall.begin.prepared g w :=
      World.withGenerator_congr rfl
    simp only [refuse, Run.exec_pure, Run.exec_logged, Run.exec_modifyGenerator, hprepared]
    rcases hooks.opening.exec (GeneratorCall.begin.prepared g w) with ⟨_ | _, v⟩ <;> rfl

theorem exec_pull : (pull hooks g).exec w = match (w.life g).phase.refusesPull with
    | some e => (.error e, w)
    | none => if (w.life g).phase = .exhausted then (.ok false, w)
      else match hooks.step.exec w with
        | (.error e, v) => (.error e, v)
        | (.ok more, v) => (.ok more, GeneratorCall.pull.settled g more v) := by
  show _ = match (w.generatorAt g).phase.refusesPull with
    | some e => _
    | none => if (w.generatorAt g).phase = Phase.exhausted then _ else _
  unfold pull
  simp only [Run.exec_bind, Run.exec_generator]
  cases (w.generatorAt g).phase.refusesPull with
  | some e => rfl
  | none =>
    simp only [refuse, Run.exec_pure]
    split
    · rfl
    · rw [Run.exec_bind]
      rcases hooks.step.exec w with ⟨e | _ | _, v⟩
      · rfl
      · -- the step is counted first, and then the phase is written
        simp only [Run.exec_bind, Run.exec_modifyGenerator, Bool.not_false, if_true,
          Run.exec_pure, World.withGenerator_withGenerator]
        rfl
      · rfl

theorem exec_endRun : (endRun hooks g).exec w = match (w.life g).phase.refusesEnd with
    | some e => (.error e, w)
    | none => match hooks.closing.exec w with
      | (.error e, v) => (.error e, v)
      | (.ok _, v) => (.ok (), GeneratorCall.finish.settled g true v) := by
  show _ = match (w.generatorAt g).phase.refusesEnd with
    | some e => _
    | none => _
  unfold endRun
  simp only [Run.exec_bind, Run.exec_generator]
  cases (w.generatorAt g).phase.refusesEnd with
  | some e => rfl
  | none =>
    simp only [refuse, Run.exec_pure]
    rcases hooks.closing.exec w with ⟨e | _, v⟩
    · rfl
    · simp only [Run.exec_modifyGenerator, Run.exec_logged]
      -- what the log tells of the generator does not change with the phase
      obtain ⟨hid, hcount⟩ := World.emitter_stepCount_withGenerator (w := v) (g := g)
        (f := fun x => { x with phase := .ended }) (fun _ => rfl) fun _ => rfl
      rw [hid, hcount]
      rfl

end Calls

/-- **A call is refused, idles, or runs its hook and settles what has come of it.** -/
theorem GeneratorCall.exec_run (hooks : Hooks) (g : GeneratorRef) (c : GeneratorCall) (w : World) :
    (c.run hooks g).exec w = match c.admission (w.life g).phase with
      | .refuses e => (.error e, w)
      | .idles => (.ok false, w)
      | .runs => match (hooks.hook c).exec (c.prepared g w) with
        | (.error e, v) => (.error e, v)
        | (.ok more, v) => (.ok more, c.settled g more v) := by
  cases c with
  | begin =>
    simp only [run, Run.exec_bind, exec_beginRun, admission, Hooks.hook]
    cases (w.life g).phase.refusesBegin with
    | some e => rfl
    | none =>
      simp only [Option.elim]
      rcases hooks.opening.exec (begin.prepared g w) with ⟨_ | _, v⟩ <;> rfl
  | pull =>
    simp only [run, exec_pull, admission, Hooks.hook, prepared]
    cases (w.life g).phase.refusesPull with
    | some e => rfl
    | none =>
      simp only [Option.elim]
      split <;> rfl
  | finish =>
    simp only [run, Run.exec_bind, exec_endRun, admission, Hooks.hook, prepared]
    cases (w.life g).phase.refusesEnd with
    | some e => rfl
    | none =>
      simp only [Option.elim]
      rcases hooks.closing.exec w with ⟨_ | _, v⟩ <;> rfl

/-! ## §4. Passages. -/

/-- What came of a call. -/
inductive Passage where
  /-- The call was refused, and no hook was run. -/
  | refused (c : GeneratorCall) (e : Error)
  /-- An exhausted generator was pulled, and no hook was run. -/
  | idle
  /-- The hook of the call was run, with this result. -/
  | ran (c : GeneratorCall) (result : Except Error Bool)

/-- What comes of a call in a world. -/
def GeneratorCall.passage (hooks : Hooks) (g : GeneratorRef) (w : World) (c : GeneratorCall) :
    Passage :=
  match c.admission (w.life g).phase with
  | .refuses e => .refused c e
  | .idles => .idle
  | .runs => .ran c ((hooks.hook c).exec (c.prepared g w)).1

namespace Passage

/-- What the caller is answered. -/
def answer : Passage → Except Error Bool
  | refused _ e => .error e
  | idle => .ok false
  | ran _ result => result

/-- Whether this can come of a call in a phase. -/
def Possible (p : Phase) : Passage → Prop
  | refused c e => c.admission p = .refuses e
  | idle => p = .exhausted
  | ran c _ => c.admission p = .runs

end Passage

/-- The life of a generator after a call: a hook that fails settles nothing. -/
def Life.pass (life : Life) : Passage → Life
  | .ran .begin (.ok _) => ⟨.running, 0⟩
  | .ran .begin (.error _) => { life with stepCount := 0 }
  | .ran .pull (.ok more) => life.settled more .pull
  | .ran .finish (.ok _) => { life with phase := .ended }
  | .ran _ (.error _) | .idle | .refused .. => life

section Passages

variable {hooks : Hooks} {g : GeneratorRef} {w : World} {c : GeneratorCall}

theorem GeneratorCall.passage_possible (hooks : Hooks) (g : GeneratorRef) (w : World)
    (c : GeneratorCall) : (c.passage hooks g w).Possible (w.life g).phase := by
  unfold passage
  cases h : c.admission (w.life g).phase with
  | refuses e => exact h
  | idles => exact (admission_eq_idles_iff.1 h).2
  | runs => exact h

theorem GeneratorCall.answer_passage (hooks : Hooks) (g : GeneratorRef) (w : World)
    (c : GeneratorCall) : (c.passage hooks g w).answer = ((c.run hooks g).exec w).1 := by
  rw [exec_run]
  unfold passage
  cases c.admission (w.life g).phase with
  | refuses e => rfl
  | idles => rfl
  | runs =>
    simp only [Passage.answer]
    rcases (hooks.hook c).exec (c.prepared g w) with ⟨_ | _, v⟩ <;> rfl

end Passages

/-! ## §5. Quiet hooks. -/

/-- In calm worlds the hooks of a generator leave its life to its callers,
whether they fail or not.  Whether a world is calm depends neither on how far the
generator has come nor on the log. -/
structure Hooks.Quiet (hooks : Hooks) (g : GeneratorRef) (calm : World → Prop) : Prop where
  present : ∀ {w : World}, calm w → w.HasGenerator g
  withLife : ∀ {w : World} (life : Life), calm w → calm (w.withLife g life)
  logged : ∀ {w : World} (entry : LogEntry), calm w → calm (w.logged entry)
  hook : ∀ (c : GeneratorCall) {w : World}, calm w →
    calm ((hooks.hook c).exec w).2 ∧ ((hooks.hook c).exec w).2.life g = w.life g

namespace Hooks.Quiet

variable {hooks : Hooks} {g : GeneratorRef} {calm : World → Prop} {w : World}

theorem prepared (h : hooks.Quiet g calm) (c : GeneratorCall) (hw : calm w) :
    calm (c.prepared g w) := by
  cases c with
  | begin => exact h.withLife _ (h.logged _ hw)
  | pull => exact hw
  | finish => exact hw

theorem settled (h : hooks.Quiet g calm) (c : GeneratorCall) (more : Bool) (hw : calm w) :
    calm (c.settled g more w) := by
  cases c with
  | begin => exact h.withLife _ hw
  | pull => exact h.withLife _ hw
  | finish => exact h.logged _ (h.withLife _ hw)

theorem life_prepared (h : hooks.Quiet g calm) (c : GeneratorCall) (hw : calm w) :
    (c.prepared g w).life g
      = if c = .begin then { w.life g with stepCount := 0 } else w.life g := by
  cases c with
  | begin => exact World.life_withLife (h.present (h.logged _ hw)) _
  | pull => rfl
  | finish => rfl

theorem life_settled (h : hooks.Quiet g calm) (c : GeneratorCall) (more : Bool) (hw : calm w) :
    (c.settled g more w).life g = (w.life g).settled more c := by
  have hlife := World.life_withLife (h.present hw) ((w.life g).settled more c)
  cases c with
  | begin => exact hlife
  | pull => exact hlife
  | finish => exact hlife

/-- **Under quiet hooks a call moves the life of a generator as its passage says.** -/
theorem life_run (h : hooks.Quiet g calm) (c : GeneratorCall) (hw : calm w) :
    calm ((c.run hooks g).exec w).2
      ∧ ((c.run hooks g).exec w).2.life g = (w.life g).pass (c.passage hooks g w) := by
  rw [GeneratorCall.exec_run]
  unfold GeneratorCall.passage
  cases c.admission (w.life g).phase with
  | refuses e => exact ⟨hw, rfl⟩
  | idles => exact ⟨hw, rfl⟩
  | runs =>
    obtain ⟨hcalm, hlife⟩ := h.hook c (h.prepared c hw)
    rw [h.life_prepared c hw] at hlife
    simp only
    rcases hexec : (hooks.hook c).exec (c.prepared g w) with ⟨e | more, v⟩ <;>
      rw [hexec] at hcalm hlife
    · refine ⟨hcalm, hlife.trans ?_⟩
      cases c <;> rfl
    · refine ⟨h.settled c more hcalm, ?_⟩
      show (c.settled g more v).life g = _
      rw [h.life_settled c more hcalm, hlife]
      cases c <;> rfl

end Hooks.Quiet
end EvolvingGraph
