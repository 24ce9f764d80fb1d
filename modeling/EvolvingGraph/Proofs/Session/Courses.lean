/-
  EvolvingGraph.Proofs.Session.Courses
  ────────────────────────────────────
  **THE LIVES OF THE GENERATORS OF A SESSION.**

  Whatever the steps of a session ask for, and however deep the hooks of a
  generator and the sinks that it tells call it again, there is a course from the
  first world to the last.  So what is true of all courses is true of sessions.

  The phase of a generator is written when a hook has returned, whatever became of
  the generator meanwhile.  A step that ends its own run and then says that no more
  is to come leaves a generator that is exhausted, not ended.

  Main statements:
    * `charted_hostOfDepth` — what the host of a session does has a course;
    * `lifecycle_under_nested_calls` — what nested calls can do to a generator;
    * `ended_run_exhausted` — the run that is exhausted after its end.
-/
import EvolvingGraph.Proofs.Generation.Nesting
import EvolvingGraph.Proofs.Session.Keeping

namespace EvolvingGraph

open Session Run

/-! ## §1. There is a course of every session. -/

/-- There is a course from one world to another. -/
def Charted (w₀ w : World) : Prop := ∃ ms, Course w₀ ms w

namespace Charted

variable {w₀ : World}

instance : LastingAtRest (Charted w₀) where
  elsewhere := fun ⟨_, course⟩ _ same => ⟨_, course.elsewhere same⟩
  written := fun _ ⟨_, course⟩ => ⟨_, course.elsewhere (.of_eq rfl rfl)⟩

theorem keeps_call {hooks : Hooks} (h : ∀ w₀ c, Keeps (Charted w₀) (hooks.hook c))
    (g : GeneratorRef) (c : GeneratorCall) : Keeps (Charted w₀) (c.run hooks g) := by
  refine ⟨fun v ⟨ms, course⟩ => ?_⟩
  cases hadmitted : c.admission (v.life g).phase with
  | refuses e =>
    rw [GeneratorCall.exec_run, hadmitted]
    exact ⟨ms, course⟩
  | idles =>
    rw [GeneratorCall.exec_run, hadmitted]
    exact ⟨ms, course⟩
  | runs =>
    -- what the hook does is a course of its own, from the prepared world on
    obtain ⟨nested, hnested⟩ := (h _ c).after (c.prepared g v) ⟨_, .start _⟩
    exact ⟨_, course.called hadmitted hnested⟩

/-- The calls to a generator have courses if its hooks have. -/
theorem keepsCalls {hooks : Hooks} (h : ∀ w₀ c, Keeps (Charted w₀) (hooks.hook c))
    (g : GeneratorRef) : KeepsCalls (Charted w₀) hooks g where
  begin := .of_bind_pure (keeps_call h g .begin)
  pull := keeps_call h g .pull
  finish := .of_bind_pure (keeps_call h g .finish)

theorem keepsCalls_hooksOf {host : Host} (h : ∀ w₀, Sustained (Charted w₀) host)
    (g : GeneratorRef) : KeepsCalls (Charted w₀) (hooksOf host g) g := by
  refine keepsCalls (fun w₀ c => ?_) g
  have := h w₀
  unfold hooksOf
  cases c <;>
    · unfold Hooks.hook
      infer_instance

/-- A change to a graph moves no generator. -/
instance (g : GraphRef) (graph : Graph) : Keeps (Charted w₀) (World.setGraph g graph) :=
  ⟨fun _ ⟨_, course⟩ => ⟨_, course.elsewhere (.of_eq rfl rfl)⟩⟩

end Charted

/-- **Whatever the host of a session does has a course, however deep its steps are
nested.** -/
theorem charted_hostOfDepth (depth : Nat) (w₀ : World) :
    Sustained (Charted w₀) (hostOfDepth depth) :=
  sustained_hostOfDepth Charted (fun _ h _ => Charted.keepsCalls_hooksOf h) depth w₀

theorem charted_afterSteps (depth : Nat) (steps : List Step) (w : World) :
    Charted w (afterSteps (hostOfDepth depth) steps w) := by
  have := charted_hostOfDepth depth w
  have (g : GeneratorRef) : KeepsCalls (Charted w) (hooksOf (hostOfDepth depth) g) g :=
    Charted.keepsCalls_hooksOf (charted_hostOfDepth depth) g
  exact keeps_afterSteps steps ⟨_, .start w⟩

/-! ## §2. A run that is ended by a sink. -/

namespace Nesting

/-- Once it is told of a node, the recorder ends the run. -/
def endsRun : Reaction Step := ⟨.nodeAdded, [.generator (some "g") .finish]⟩

/-- A generator of one step, which announces a node and says whether more is to come,
and the recorder that it tells. -/
def stage (more : Bool) : World :=
  { World.initial with
    recorders := ⟨[⟨"r", [endsRun]⟩]⟩
    generators := ⟨[⟨"g", ⟨.str "G", [.recorder 0]⟩,
      ⟨[], [⟨[.change none (.addNode (.value (.int 1)) []) none], .value (.bool more)⟩], [],
        .value (.bool false)⟩, 0, .notStarted, 0⟩]⟩
    bindings := [("g", .sink (.generator ⟨0⟩))] }

/-- The generator is begun and pulled once. -/
def steps : List Step := [.generator (some "g") .begin, .generator (some "g") .pull]

/-- The run is ended while the step is played. -/
def moments (more : Bool) : List Moment :=
  [⟨⟨0⟩, .begin, .ok true, .notStarted⟩, ⟨⟨0⟩, .finish, .ok true, .running⟩,
    ⟨⟨0⟩, .pull, .ok more, .ended⟩]

/-- The generator has been begun. -/
def begun (more : Bool) : World :=
  ((GeneratorCall.begin.run (hooksOf (hostOfDepth 4) ⟨0⟩) ⟨0⟩).exec (stage more)).2

/-- The recorder has been told of the node. -/
def told (more : Bool) : World :=
  { (begun more).receive [⟨"r", .str "G", .nodeAdded (.int 1)⟩] with
    recorders := ⟨[⟨"r", []⟩]⟩
    generators := ⟨[{ (begun more).generatorAt ⟨0⟩ with position := 1 }]⟩ }

theorem keepsRuns_told (more : Bool) : (begun more).KeepsRuns (told more) := by
  refine ⟨fun g hg => ?_, rfl⟩
  obtain rfl : g = ⟨0⟩ := congrArg GeneratorRef.mk (Nat.lt_one_iff.1 hg)
  exact ⟨hg, rfl⟩

theorem course_begun (more : Bool) :
    Course (stage more) [⟨⟨0⟩, .begin, .ok true, .notStarted⟩] (begun more) := by
  have hcalled : Course (stage more)
      ([] ++ [] ++ [GeneratorCall.begin.moment (hooksOf (hostOfDepth 4) ⟨0⟩) ⟨0⟩ (stage more)])
      (begun more) := .called (.start _) rfl (.start _)
  exact hcalled

/-- What happens while the step is played. -/
theorem course_step (more : Bool) :
    Course (begun more) [⟨⟨0⟩, .finish, .ok true, .running⟩]
      ((hooksOf (hostOfDepth 4) ⟨0⟩).step.exec (begun more)).2 := by
  have hcalled : Course (begun more)
      ([] ++ [] ++ [GeneratorCall.finish.moment (hooksOf (hostOfDepth 1) ⟨0⟩) ⟨0⟩ (told more)])
      ((GeneratorCall.finish.run (hooksOf (hostOfDepth 1) ⟨0⟩) ⟨0⟩).exec (told more)).2 :=
    .called (.elsewhere (.start _) (keepsRuns_told more)) rfl (.start _)
  exact hcalled

theorem course (more : Bool) :
    Course (stage more) (moments more) (afterSteps (hostOfDepth 4) steps (stage more)) := by
  have hcalled : Course (stage more)
      (_ ++ _ ++ [GeneratorCall.pull.moment (hooksOf (hostOfDepth 4) ⟨0⟩) ⟨0⟩ (begun more)])
      ((GeneratorCall.pull.run (hooksOf (hostOfDepth 4) ⟨0⟩) ⟨0⟩).exec (begun more)).2 :=
    (course_begun more).called rfl (course_step more)
  cases more <;> exact hcalled

theorem momentsOf_moments (more : Bool) : momentsOf ⟨0⟩ (moments more) = moments more :=
  List.filter_eq_self.2 (by simp [moments])

/-- The run is closed once more. -/
def closesAgain : Step := .generator (some "g") .finish

theorem course_closesAgain :
    Course (stage false) (moments false ++ [⟨⟨0⟩, .finish, .ok true, .exhausted⟩])
      (afterSteps (hostOfDepth 4) (steps ++ [closesAgain]) (stage false)) := by
  have hcalled : Course (stage false)
      (moments false ++ [] ++ [GeneratorCall.finish.moment (hooksOf (hostOfDepth 4) ⟨0⟩) ⟨0⟩ _])
      ((GeneratorCall.finish.run (hooksOf (hostOfDepth 4) ⟨0⟩) ⟨0⟩).exec
        (afterSteps (hostOfDepth 4) steps (stage false))).2 :=
    (course false).called rfl (.start _)
  exact hcalled

end Nesting

/-! ## §3. What nested calls can do. -/

/-- What is true of the moments of a generator that lead from one phase to another:
the phase changes nowhere else; the changes are those of a life in order unless a call
is overtaken; and if none is, a run that has ended is not closed again. -/
structure LivesThrough (p : Phase) (ms : List Moment) (q : Phase) : Prop where
  linked : Linked p ms q
  lawful_iff : ∀ m ∈ ms, m.Lawful ↔ ¬ m.Overtaken ∨ m.call = .finish
  inOrder : (∀ m ∈ ms, ¬ m.Overtaken) → (∀ m ∈ ms, m.Lawful) ∧ EndsOnce ms

/-- **However calls to a generator are nested, its life is in order unless a call is
overtaken by one that its own hook makes.**  Every session has a course, from which no
line of the log about a run is missing. -/
theorem lifecycle_under_nested_calls {w : World} {g : GeneratorRef} (hg : w.HasGenerator g) :
    (∀ depth steps, ∃ ms, Course w ms (afterSteps (hostOfDepth depth) steps w)
      ∧ (afterSteps (hostOfDepth depth) steps w).runLines.length
        = w.runLines.length + (ms.map Moment.lines).sum)
    ∧ (∀ {ms : List Moment} {v : World}, Course w ms v →
      LivesThrough (w.life g).phase (momentsOf g ms) (v.life g).phase)
    ∧ ∀ {hooks : Hooks} {c : GeneratorCall} {nested : List Moment},
      c.admission (w.life g).phase = .runs →
      Course (c.prepared g w) nested ((hooks.hook c).exec (c.prepared g w)).2 →
      (c.moment hooks g w).Overtaken →
      ∃ m ∈ momentsOf g nested, if c = .begin then m.Exhausts else m.Ends := by
  refine ⟨fun depth steps => ?_, fun course => ?_,
    fun hadmitted hnested => hnested.overtaken_by hadmitted hg⟩
  · obtain ⟨ms, course⟩ := charted_afterSteps depth steps w
    exact ⟨ms, course, course.length_runLines⟩
  · refine ⟨(course.linked hg).2, course.lawful_iff hg, fun hovertaken => ?_⟩
    refine ⟨fun m hm => ?_, course.endsOnce hg hovertaken⟩
    exact (course.lawful_iff hg m hm).2 (.inl (hovertaken m hm))

open Nesting

/-- A sink ends the run in the middle of a step that says that more is to come.  Were
it the last step, it would be overtaken by the call of the sink. -/
theorem lifecycle_under_nested_calls_endedBySink :
    (Course (stage true) (moments true) (afterSteps (hostOfDepth 4) steps (stage true))
      ∧ (stage true).HasGenerator ⟨0⟩ ∧ (∀ m ∈ moments true, ¬ m.Overtaken)
      ∧ Linked .notStarted (moments true) .ended
      ∧ (∀ m ∈ moments true, m.Lawful) ∧ EndsOnce (moments true))
    ∧ (GeneratorCall.pull.moment (hooksOf (hostOfDepth 4) ⟨0⟩) ⟨0⟩ (begun false)).Overtaken
    ∧ ∃ m ∈ momentsOf ⟨0⟩ [⟨⟨0⟩, .finish, .ok true, .running⟩], m.Ends := by
  have hovertaken : ∀ m ∈ moments true, ¬ m.Overtaken := by
    simp [moments, Moment.Overtaken]
  have hpresent : (stage true).HasGenerator ⟨0⟩ := Nat.one_pos
  have hlives := (lifecycle_under_nested_calls hpresent).2.1 (course true)
  rw [momentsOf_moments] at hlives
  refine ⟨⟨course true, hpresent, hovertaken, hlives.linked, hlives.inOrder hovertaken⟩,
    ⟨rfl, rfl⟩, ?_⟩
  have hbegun : (begun false).HasGenerator ⟨0⟩ := Nat.one_pos
  exact (lifecycle_under_nested_calls hbegun).2.2 (c := .pull) rfl (course_step false) ⟨rfl, rfl⟩

/-- A sink ends the run in the middle of the last step, and after its end the generator
is exhausted: it cannot be begun again, and the run is closed a second time. -/
theorem ended_run_exhausted :
    Course (stage false) (moments false) (afterSteps (hostOfDepth 4) steps (stage false))
    ∧ (∃ m ∈ moments false, m.before = .ended ∧ m.after = .exhausted ∧ ¬ m.Lawful)
    ∧ ((afterSteps (hostOfDepth 4) steps (stage false)).life ⟨0⟩).phase = .exhausted
    ∧ ((playStep (hostOfDepth 4) none (.generator (some "g") .begin)).exec
      (afterSteps (hostOfDepth 4) steps (stage false))).1 = .error .begunTwice
    ∧ Course (stage false) (moments false ++ [⟨⟨0⟩, .finish, .ok true, .exhausted⟩])
      (afterSteps (hostOfDepth 4) (steps ++ [closesAgain]) (stage false))
    ∧ ¬ EndsOnce (moments false ++ [⟨⟨0⟩, .finish, .ok true, .exhausted⟩]) := by
  refine ⟨course false, ⟨⟨⟨0⟩, .pull, .ok false, .ended⟩, by simp [moments], rfl, rfl, ?_⟩,
    rfl, rfl, course_closesAgain, ?_⟩
  · rintro (h | h) <;> cases h
  · intro hends
    obtain ⟨b, hb, hbegins, -⟩ := hends [⟨⟨0⟩, .begin, .ok true, .notStarted⟩]
      ⟨⟨0⟩, .finish, .ok true, .running⟩ [⟨⟨0⟩, .pull, .ok false, .ended⟩]
      ⟨⟨0⟩, .finish, .ok true, .exhausted⟩ [] rfl ⟨rfl, true, rfl⟩ rfl
    rw [List.mem_singleton.1 hb] at hbegins
    cases hbegins

end EvolvingGraph
