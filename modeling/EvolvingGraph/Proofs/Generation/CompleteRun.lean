/-
  EvolvingGraph.Proofs.Generation.CompleteRun
  ───────────────────────────────────────────
  **A COMPLETE RUN IS WHAT ONE WOULD DO BY HAND.**

  A complete run into a sink attaches the sink, begins the generator, pulls it as
  long as the limit allows and more is to come, and finishes it.  It leaves the
  world as these calls do when they are made one after the other, and gives the
  number of pulls that said that more is to come.  Once begun, the run is
  finished in any case, and the sinks of the generator are afterwards what they
  were before.

  Main statements:
    * `exec_attachFor` — a sink that is attached for a while;
    * `exec_pullUpTo` — the pulls of a run, made one by one;
    * `exec_completeRun_eq_callAll` — a complete run without a sink;
    * `generate_eq_calls` — a complete run into a sink, failures included.
-/
import EvolvingGraph.Proofs.Generation.Protocol

namespace EvolvingGraph

/-! ## §1. A sink for a while. -/

theorem Emitter.attach_of_mem {e : Emitter} {s : SinkRef} (h : s ∈ e.sinks) : e.attach s = e :=
  if_pos h

theorem Emitter.attach_of_not_mem {e : Emitter} {s : SinkRef} (h : s ∉ e.sinks) :
    e.attach s = { e with sinks := e.sinks ++ [s] } := if_neg h

theorem Run.exec_ensuring {α : Type} (x : Run α) (afterwards : Run Unit) (w : World) :
    (ensuring x afterwards).exec w = match afterwards.exec (x.exec w).2 with
      | (.ok _, v) => ((x.exec w).1, v)
      | (.error e, v) => (.error e, v) := by
  unfold ensuring
  simp only [exec_bind, exec_attempt, exec_ofExcept]
  rcases afterwards.exec (x.exec w).2 with ⟨_ | _, _⟩ <;> rfl

namespace World

/-- The sinks that are attached to a generator. -/
def sinksOf (w : World) (g : GeneratorRef) : List SinkRef := (w.generatorAt g).emitter.sinks

/-- The world with other sinks attached to a generator. -/
def withSinks (w : World) (g : GeneratorRef) (sinks : List SinkRef) : World :=
  w.withGenerator g fun x => { x with emitter := { x.emitter with sinks := sinks } }

/-- The world with one more sink attached to a generator, unless it is attached. -/
def attached (w : World) (g : GeneratorRef) : Option SinkRef → World
  | none => w
  | some s => w.withGenerator g fun x => { x with emitter := x.emitter.attach s }

variable {w : World} {g : GeneratorRef} {s : SinkRef}

@[simp] theorem sinksOf_logged (entry : LogEntry) :
    (w.logged entry).sinksOf g = w.sinksOf g := rfl

theorem sinksOf_withLife (h : w.HasGenerator g) (life : Life) :
    (w.withLife g life).sinksOf g = w.sinksOf g := by
  unfold sinksOf withLife
  rw [generatorAt_withGenerator h]

theorem sinksOf_withSinks (h : w.HasGenerator g) (sinks : List SinkRef) :
    (w.withSinks g sinks).sinksOf g = sinks := by
  unfold sinksOf withSinks
  rw [generatorAt_withGenerator h]

theorem withSinks_sinksOf (w : World) (g : GeneratorRef) : w.withSinks g (w.sinksOf g) = w :=
  withGenerator_self rfl

theorem attached_of_mem (h : s ∈ w.sinksOf g) : w.attached g (some s) = w := by
  show w.withGenerator g (fun x => { x with emitter := x.emitter.attach s }) = w
  exact withGenerator_self (by rw [Emitter.attach_of_mem h])

theorem sinksOf_attached (hg : w.HasGenerator g) (h : s ∉ w.sinksOf g) :
    (w.attached g (some s)).sinksOf g = w.sinksOf g ++ [s] := by
  unfold sinksOf attached
  rw [generatorAt_withGenerator hg, Emitter.attach_of_not_mem h]

@[simp] theorem hasGenerator_attached (sink : Option SinkRef) :
    (w.attached g sink).HasGenerator g ↔ w.HasGenerator g := by
  cases sink with
  | none => exact Iff.rfl
  | some s => exact hasGenerator_withGenerator _

@[simp] theorem life_attached (sink : Option SinkRef) :
    (w.attached g sink).life g = w.life g := by
  cases sink with
  | none => rfl
  | some s =>
    by_cases hg : w.HasGenerator g
    · unfold World.life attached
      rw [generatorAt_withGenerator hg]
    · rw [attached, withGenerator_of_not_hasGenerator hg]

end World

/-- **What is done with a sink attached for a while is done in the world in which it
is attached, and then the sinks are what they were.** -/
theorem exec_attachFor {α : Type} {g : GeneratorRef} {sink : Option SinkRef} {x : Run α}
    {w v : World} {result : Except Error α} (hown : sink ≠ some (.generator g))
    (hg : w.HasGenerator g) (hx : x.exec (w.attached g sink) = (result, v))
    (hsame : v.sinksOf g = (w.attached g sink).sinksOf g) :
    (attachFor g sink x).exec w = (result, v.withSinks g (w.sinksOf g)) := by
  cases sink with
  | none =>
    rw [← show v.sinksOf g = w.sinksOf g from hsame, World.withSinks_sinksOf]
    exact hx
  | some s =>
    by_cases hs : s ∈ w.sinksOf g
    · rw [World.attached_of_mem hs] at hx hsame
      rw [exec_attachFor_of_mem x hs, ← hsame, World.withSinks_sinksOf]
      exact hx
    · have hne : s ≠ .generator g := fun h => hown (congrArg _ h)
      have hdetached : v.withGenerator g (fun x => { x with emitter := x.emitter.detach s })
          = v.withSinks g (w.sinksOf g) := by
        refine World.withGenerator_congr ?_
        rw [World.sinksOf_attached hg hs] at hsame
        have herase : (v.sinksOf g).erase s = w.sinksOf g := by
          rw [hsame, List.erase_append_right _ hs]
          simp
        simp only [Emitter.detach, ← herase]
        rfl
      have hattached : w.withGenerator g (fun x => { x with emitter := x.emitter.attach s })
        = w.attached g (some s) := rfl
      have hs' : s ∉ (w.generatorAt g).emitter.sinks := hs
      unfold attachFor
      simp only [Run.exec_bind, Run.exec_generator, if_neg hs', if_neg hne,
        Run.exec_modifyGenerator, Run.exec_ensuring, hattached, hx, hdetached]

/-! ## §2. What a complete run consists of. -/

/-- The hooks of a generator leave its sinks alone. -/
def Hooks.LeavesSinks (hooks : Hooks) (g : GeneratorRef) (calm : World → Prop) : Prop :=
  ∀ (c : GeneratorCall) (w : World), calm w → ((hooks.hook c).exec w).2.sinksOf g = w.sinksOf g

theorem GenerationScript.Announces.leavesSinks {script : GenerationScript Step}
    (h : script.Announces) (depth : Nat) (g : GeneratorRef) :
    (scriptHooks (Session.hostOfDepth (depth + 1)) g).LeavesSinks g
      (World.Stages (Session.hostOfDepth depth) g script) := by
  intro c w hw
  unfold World.sinksOf
  rw [(h.played hw c).emitter_eq]

/-- Pulls after some others, and what comes of them: pulls that say that more is to
come, until the limit is reached, or one says otherwise, or one fails. -/
inductive Pulls (limit : Limit) (made : Nat) : List Passage → Except Error Nat → Prop where
  | limited {k : Nat} (below : ∀ j < k, limit.allows (made + j))
      (reached : limit.allows (made + k) = false) :
      Pulls limit made (.replicate k (.ran .pull (.ok true))) (.ok k)
  | exhausted {k : Nat} (below : ∀ j ≤ k, limit.allows (made + j)) :
      Pulls limit made (.replicate k (.ran .pull (.ok true)) ++ [.ran .pull (.ok false)]) (.ok k)
  | failed {k : Nat} {e : Error} (below : ∀ j ≤ k, limit.allows (made + j)) :
      Pulls limit made (.replicate k (.ran .pull (.ok true)) ++ [.ran .pull (.error e)])
        (.error e)

/-- The passages of a complete run from one phase to another, and what comes of it. -/
inductive CompleteRun (limit : Limit) (p : Phase) :
    List Passage → Except Error Nat → Phase → Prop where
  | refused {e : Error} (busy : p.inRun) :
      CompleteRun limit p [.refused .begin e] (.error e) p
  | notBegun {e : Error} (idle : p.inRun = false) :
      CompleteRun limit p [.ran .begin (.error e)] (.error e) p
  | finished {ps : List Passage} {result : Except Error Nat} (idle : p.inRun = false)
      (pulls : Pulls limit 0 ps result) :
      CompleteRun limit p (.ran .begin (.ok true) :: ps ++ [.ran .finish (.ok true)]) result .ended
  /-- The failure to finish is what the caller learns of. -/
  | notFinished {ps : List Passage} {result : Except Error Nat} {e : Error} {p' : Phase}
      (idle : p.inRun = false) (pulls : Pulls limit 0 ps result) (busy : p'.inRun) :
      CompleteRun limit p (.ran .begin (.ok true) :: ps ++ [.ran .finish (.error e)]) (.error e) p'

theorem Pulls.cons {limit : Limit} {made : Nat} {ps : List Passage} {result : Except Error Nat}
    (h : Pulls limit (made + 1) ps result) (hmade : limit.allows made) :
    Pulls limit made (.ran .pull (.ok true) :: ps) (result.map (· + 1)) := by
  -- what is allowed later is allowed after one more pull
  have hstep {k : Nat} (below : ∀ j < k, limit.allows (made + 1 + j)) :
      ∀ j < k + 1, limit.allows (made + j) := by
    intro j hj
    cases j with
    | zero => exact hmade
    | succ j =>
      rw [show made + (j + 1) = made + 1 + j by omega]
      exact below j (by omega)
  cases h with
  | @limited k below reached =>
    rw [← List.replicate_succ]
    refine .limited (hstep below) ?_
    rw [show made + (k + 1) = made + 1 + k by omega]
    exact reached
  | @exhausted k below =>
    rw [← List.cons_append, ← List.replicate_succ]
    exact .exhausted fun j hj =>
      hstep (k := k + 1) (fun i hi => below i (by omega)) j (by omega)
  | @failed k e below =>
    rw [← List.cons_append, ← List.replicate_succ]
    exact .failed fun j hj => hstep (k := k + 1) (fun i hi => below i (by omega)) j (by omega)

/-! ## §3. A complete run, call by call. -/

section Calls

variable {hooks : Hooks} {g : GeneratorRef} {calm : World → Prop} {w : World} {c : GeneratorCall}

theorem GeneratorCall.passage_of_runs (h : c.admission (w.life g).phase = .runs) :
    c.passage hooks g w = .ran c ((c.run hooks g).exec w).1 := by
  have hanswer := answer_passage hooks g w c
  unfold passage at hanswer ⊢
  rw [h] at hanswer ⊢
  rw [← hanswer]
  rfl

theorem GeneratorCall.admission_begin_iff {p : Phase} :
    begin.admission p = .runs ↔ p.inRun = false := by
  rw [admission_eq_runs_iff]
  cases p <;> simp [Phase.inRun]

theorem GeneratorCall.admission_pull_iff {p : Phase} :
    pull.admission p = .runs ↔ p = .running := admission_eq_runs_iff

theorem GeneratorCall.admission_finish_iff {p : Phase} :
    finish.admission p = .runs ↔ p.inRun = true := by
  rw [admission_eq_runs_iff]
  cases p <;> simp [Phase.inRun]

/-- What comes of a call that is admitted. -/
theorem Hooks.Quiet.run_admitted (hquiet : hooks.Quiet g calm) (hw : calm w)
    (h : c.admission (w.life g).phase = .runs) {result : Except Error Bool} {v : World}
    (hexec : (c.run hooks g).exec w = (result, v)) :
    calm v ∧ c.passage hooks g w = .ran c result
      ∧ v.life g = (w.life g).pass (.ran c result) := by
  obtain ⟨hcalm, hlife⟩ := hquiet.life_run c hw
  have hpassage : c.passage hooks g w = _ := GeneratorCall.passage_of_runs h
  rw [hpassage] at hlife
  rw [hexec] at hcalm hpassage hlife
  exact ⟨hcalm, hpassage, hlife⟩

/-- Calls leave the sinks alone, if the hooks do. -/
theorem Hooks.LeavesSinks.run (h : hooks.LeavesSinks g calm) (hquiet : hooks.Quiet g calm)
    (c : GeneratorCall) (hw : calm w) : ((c.run hooks g).exec w).2.sinksOf g = w.sinksOf g := by
  have hprepared : (c.prepared g w).sinksOf g = w.sinksOf g := by
    cases c with
    | begin => exact World.sinksOf_withLife (hquiet.present (hquiet.logged _ hw)) _
    | pull => rfl
    | finish => rfl
  have hsettled {v : World} (more : Bool) (hv : calm v) :
      (c.settled g more v).sinksOf g = v.sinksOf g := by
    cases c with
    | begin => exact World.sinksOf_withLife (hquiet.present hv) _
    | pull => exact World.sinksOf_withLife (hquiet.present hv) _
    | finish => exact World.sinksOf_withLife (hquiet.present hv) _
  rw [GeneratorCall.exec_run]
  cases c.admission (w.life g).phase with
  | refuses e => rfl
  | idles => rfl
  | runs =>
    have hcalm := (hquiet.hook c (hquiet.prepared c hw)).1
    have hsinks := (h c _ (hquiet.prepared c hw)).trans hprepared
    dsimp only
    rcases hexec : (hooks.hook c).exec (c.prepared g w) with ⟨e | more, v⟩ <;>
      rw [hexec] at hcalm hsinks
    · exact hsinks
    · exact (hsettled more hcalm).trans hsinks

theorem Hooks.LeavesSinks.callAll (h : hooks.LeavesSinks g calm) (hquiet : hooks.Quiet g calm)
    (cs : List GeneratorCall) (hw : calm w) :
    (callAll hooks g w cs).2.sinksOf g = w.sinksOf g := by
  induction cs generalizing w with
  | nil => rfl
  | cons c cs ih => exact (ih (hquiet.life_run c hw).1).trans (h.run hquiet c hw)

theorem exec_pullUpTo_succ (limit : Limit) (fuel made : Nat) :
    (pullUpTo hooks g limit (fuel + 1) made).exec w
      = if limit.allows made then match (pull hooks g).exec w with
          | (.ok true, v) => (((pullUpTo hooks g limit fuel (made + 1)).exec v).1.map (· + 1),
            ((pullUpTo hooks g limit fuel (made + 1)).exec v).2)
          | (.ok false, v) => (.ok 0, v)
          | (.error e, v) => (.error e, v)
        else (.ok 0, w) := by
  conv_lhs => unfold pullUpTo
  split
  · rw [Run.exec_bind]
    rcases (pull hooks g).exec w with ⟨e | _ | _, v⟩
    · rfl
    · rfl
    · dsimp only
      rw [if_pos rfl, Run.exec_bind]
      rcases (pullUpTo hooks g limit fuel (made + 1)).exec v with ⟨_ | _, _⟩ <;> rfl
  · rfl

/-- **The pulls of a run are made one by one**, if there is fuel enough for reaching
the limit or a pull that does not say that more is to come. -/
theorem exec_pullUpTo (hquiet : hooks.Quiet g calm) {limit : Limit} {fuel made : Nat}
    (hw : calm w) (hrunning : (w.life g).phase = .running)
    (hends : ∃ m < fuel, limit.allows (made + m) = false
      ∨ ((pull hooks g).exec (callAll hooks g w (.replicate m .pull)).2).1 ≠ .ok true) :
    ∃ k result, (pullUpTo hooks g limit fuel made).exec w
        = (result, (callAll hooks g w (.replicate k .pull)).2)
      ∧ Pulls limit made (callAll hooks g w (.replicate k .pull)).1 result := by
  induction fuel generalizing made w with
  | zero =>
    obtain ⟨m, hm, -⟩ := hends
    exact absurd hm (Nat.not_lt_zero m)
  | succ fuel ih =>
    rw [exec_pullUpTo_succ]
    cases hmade : limit.allows made with
    | false => exact ⟨0, .ok 0, rfl, .limited (k := 0) (by simp) hmade⟩
    | true =>
      rw [if_pos rfl]
      rcases hpull : (pull hooks g).exec w with ⟨e | _ | _, v⟩
      all_goals
        obtain ⟨hcalm, hpassage, hlife⟩ :=
          hquiet.run_admitted (c := .pull) hw (GeneratorCall.admission_pull_iff.2 hrunning) hpull
        -- one more pull in front of some others
        have hcons (k : Nat) : callAll hooks g w (.replicate (k + 1) .pull)
            = (GeneratorCall.pull.passage hooks g w
                :: (callAll hooks g v (.replicate k .pull)).1,
              (callAll hooks g v (.replicate k .pull)).2) := by
          simp only [List.replicate_succ, callAll, GeneratorCall.run, hpull]
      · refine ⟨1, .error e, ?_, ?_⟩
        · rw [hcons]
          rfl
        · rw [hcons, hpassage]
          exact .failed (k := 0) fun j hj => by rw [Nat.le_zero.1 hj]; exact hmade
      · refine ⟨1, .ok 0, ?_, ?_⟩
        · rw [hcons]
          rfl
        · rw [hcons, hpassage]
          exact .exhausted (k := 0) fun j hj => by rw [Nat.le_zero.1 hj]; exact hmade
      · have hends' : ∃ m < fuel, limit.allows (made + 1 + m) = false
            ∨ ((pull hooks g).exec (callAll hooks g v (.replicate m .pull)).2).1 ≠ .ok true := by
          obtain ⟨m, hm, hm'⟩ := hends
          cases m with
          | zero => simp [hmade, hpull, callAll] at hm'
          | succ m =>
            rw [hcons, show made + (m + 1) = made + 1 + m by omega] at hm'
            exact ⟨m, by omega, hm'⟩
        have hrunning' : (v.life g).phase = .running := by
          rw [hlife]
          exact hrunning
        obtain ⟨k, result, hexec, hpulls⟩ := ih hcalm hrunning' hends'
        dsimp only
        refine ⟨k + 1, result.map (· + 1), ?_, ?_⟩
        · rw [hexec, hcons]
        · rw [hcons, hpassage]
          exact hpulls.cons hmade

theorem inRun_pulls (hquiet : hooks.Quiet g calm) (hw : calm w) (hrun : (w.life g).phase.inRun)
    (k : Nat) : calm (callAll hooks g w (.replicate k .pull)).2
      ∧ ((callAll hooks g w (.replicate k .pull)).2.life g).phase.inRun := by
  induction k generalizing w with
  | zero => exact ⟨hw, hrun⟩
  | succ k ih =>
    obtain ⟨hcalm, hlife⟩ := hquiet.life_run .pull hw
    refine ih hcalm ?_
    rw [hlife]
    cases hphase : (w.life g).phase with
    | notStarted | ended =>
      rw [hphase] at hrun
      cases hrun
    | running =>
      rw [GeneratorCall.passage_of_runs (GeneratorCall.admission_pull_iff.2 hphase)]
      rcases ((GeneratorCall.pull.run hooks g).exec w).1 with _ | _ | _
      · exact hrun
      · rfl
      · exact hrun
    | exhausted =>
      have hidle : GeneratorCall.pull.passage hooks g w = .idle := by
        unfold GeneratorCall.passage
        rw [hphase]
        rfl
      rw [hidle]
      exact hrun

/-- A call that begins or finishes has nothing to say but that it has come through. -/
theorem GeneratorCall.answer_eq_true (hc : c ≠ .pull) {more : Bool} {v : World}
    (h : (c.run hooks g).exec w = (.ok more, v)) : more = true := by
  cases c with
  | pull => exact absurd rfl hc
  | begin =>
    simp only [run, Run.exec_bind, Run.exec_pure] at h
    rcases hexec : (beginRun hooks g).exec w with ⟨_ | _, _⟩ <;> rw [hexec] at h <;> cases h
    rfl
  | finish =>
    simp only [run, Run.exec_bind, Run.exec_pure] at h
    rcases hexec : (endRun hooks g).exec w with ⟨_ | _, _⟩ <;> rw [hexec] at h <;> cases h
    rfl

theorem exec_completeRun (limit : Limit) (patience : Nat) :
    (completeRun hooks patience g limit).exec w = match (GeneratorCall.begin.run hooks g).exec w with
      | (.error e, v) => (.error e, v)
      | (.ok _, v) => match (GeneratorCall.finish.run hooks g).exec
            ((pullUpTo hooks g limit (limit.fuel patience) 0).exec v).2 with
        | (.error e, u) => (.error e, u)
        | (.ok _, u) => (((pullUpTo hooks g limit (limit.fuel patience) 0).exec v).1, u) := by
  unfold completeRun GeneratorCall.run
  simp only [Run.exec_bind, Run.exec_ensuring]
  rcases (beginRun hooks g).exec w with ⟨e | _, v⟩
  · rfl
  · dsimp only [Run.exec_pure]
    rcases (endRun hooks g).exec
      ((pullUpTo hooks g limit (limit.fuel patience) 0).exec v).2 with ⟨e | _, u⟩ <;> rfl

/-- If a run without a limit can begin, it comes to an end: after some pulls, fewer than
one has patience for, another one does not say that more is to come. -/
def ComesToEnd (hooks : Hooks) (g : GeneratorRef) (w : World) (patience : Nat) : Prop :=
  ∀ v, (beginRun hooks g).exec w = (.ok (), v) →
    ∃ m < patience, ((pull hooks g).exec (callAll hooks g v (.replicate m .pull)).2).1 ≠ .ok true

/-- A run that has begun is pulled and finished. -/
theorem exec_completeRun_begun (hquiet : hooks.Quiet g calm) {limit : Limit} {patience : Nat}
    {v : World} (hidle : (w.life g).phase.inRun = false)
    (hbegin : (GeneratorCall.begin.run hooks g).exec w = (.ok true, v))
    (hpassage : GeneratorCall.begin.passage hooks g w = .ran .begin (.ok true)) (hv : calm v)
    (hrunning : (v.life g).phase = .running)
    (hends : limit = .unlimited → ComesToEnd hooks g w patience) :
    ∃ cs result, (completeRun hooks patience g limit).exec w = (result, (callAll hooks g w cs).2)
      ∧ CompleteRun limit (w.life g).phase (callAll hooks g w cs).1 result
        ((callAll hooks g w cs).2.life g).phase := by
  have hcons (cs : List GeneratorCall) : callAll hooks g w (.begin :: cs)
      = (.ran .begin (.ok true) :: (callAll hooks g v cs).1, (callAll hooks g v cs).2) := by
    simp only [callAll, hbegin, hpassage]
  have hlimited : ∃ m < limit.fuel patience, limit.allows (0 + m) = false
      ∨ ((pull hooks g).exec (callAll hooks g v (.replicate m .pull)).2).1 ≠ .ok true := by
    cases limit with
    | unlimited =>
      have hbegun : (beginRun hooks g).exec w = (.ok (), v) := by
        simp only [GeneratorCall.run, Run.exec_bind, Run.exec_pure] at hbegin
        rcases hexec : (beginRun hooks g).exec w with ⟨_ | _, _⟩ <;> rw [hexec] at hbegin <;>
          cases hbegin
        rfl
      obtain ⟨m, hm, hm'⟩ := hends rfl v hbegun
      exact ⟨m, hm, .inr hm'⟩
    | calls n => exact ⟨n, Nat.lt_succ_self n, .inl (by simp [Limit.allows])⟩
  obtain ⟨k, result, hpull, hpulls⟩ := exec_pullUpTo hquiet hv hrunning hlimited
  obtain ⟨hcalm, hrun⟩ := inRun_pulls hquiet hv (by rw [hrunning]; rfl) k
  have hall : callAll hooks g w (.begin :: (.replicate k .pull ++ [.finish]))
      = (.ran .begin (.ok true) :: (callAll hooks g v (.replicate k .pull)).1
          ++ [GeneratorCall.finish.passage hooks g (callAll hooks g v (.replicate k .pull)).2],
        ((GeneratorCall.finish.run hooks g).exec (callAll hooks g v (.replicate k .pull)).2).2) := by
    rw [hcons, callAll_append]
    rfl
  rw [exec_completeRun, hbegin]
  dsimp only
  rw [hpull]
  dsimp only
  rcases hexec : (GeneratorCall.finish.run hooks g).exec
    (callAll hooks g v (.replicate k .pull)).2 with ⟨e | more, u⟩
  all_goals
    obtain ⟨-, hfinish, hlife⟩ :=
      hquiet.run_admitted hcalm (GeneratorCall.admission_finish_iff.2 hrun) hexec
    rw [hexec, hfinish] at hall
  · refine ⟨_, .error e, by rw [hall], ?_⟩
    rw [hall, hlife]
    exact .notFinished hidle hpulls hrun
  · obtain rfl := GeneratorCall.answer_eq_true (by decide) hexec
    refine ⟨_, result, by rw [hall], ?_⟩
    rw [hall, hlife]
    exact .finished hidle hpulls

/-- **A complete run is a begin, pulls, and, once it has begun, a finish.** -/
theorem exec_completeRun_eq_callAll (hquiet : hooks.Quiet g calm) (hw : calm w) {limit : Limit}
    {patience : Nat} (hends : limit = .unlimited → ComesToEnd hooks g w patience) :
    ∃ cs result, (completeRun hooks patience g limit).exec w = (result, (callAll hooks g w cs).2)
      ∧ CompleteRun limit (w.life g).phase (callAll hooks g w cs).1 result
        ((callAll hooks g w cs).2.life g).phase := by
  cases hidle : (w.life g).phase.inRun with
  | true =>
    obtain ⟨e, -, hrefused⟩ :=
      GeneratorCall.exec_run_misplaced (GeneratorCall.misplaced_begin_iff.2 hidle)
    obtain ⟨hexec, hpassage⟩ := hrefused hooks
    refine ⟨[.begin], .error e, ?_, ?_⟩
    · simp only [exec_completeRun, callAll, hexec]
    · simp only [callAll, hexec, hpassage]
      exact .refused hidle
  | false =>
    rcases hexec : (GeneratorCall.begin.run hooks g).exec w with ⟨e | started, v⟩
    all_goals
      obtain ⟨hcalm, hpassage, hlife⟩ :=
        hquiet.run_admitted hw (GeneratorCall.admission_begin_iff.2 hidle) hexec
    · refine ⟨[.begin], .error e, by simp only [exec_completeRun, callAll, hexec], ?_⟩
      simp only [callAll, hexec, hpassage]
      rw [hlife]
      exact .notBegun hidle
    · obtain rfl := GeneratorCall.answer_eq_true (by decide) hexec
      refine exec_completeRun_begun hquiet hidle hexec hpassage hcalm ?_ hends
      rw [hlife]
      rfl

end Calls

/-! ## §4. A complete run into a sink. -/

/-- **A complete run into a sink leaves the world as the same calls by hand do while
the sink is attached; then the sinks are what they were, in any case.** -/
theorem generate_eq_calls {hooks : Hooks} {g : GeneratorRef} {calm : World → Prop} {w : World}
    {sink : Option SinkRef} {limit : Limit} {patience : Nat} (hquiet : hooks.Quiet g calm)
    (hsinks : hooks.LeavesSinks g calm) (hown : sink ≠ some (.generator g))
    (hcalm : calm (w.attached g sink))
    (hends : limit = .unlimited → ComesToEnd hooks g (w.attached g sink) patience) :
    ∃ cs ps result v, callAll hooks g (w.attached g sink) cs = (ps, v)
      ∧ (generateInto hooks patience g sink limit).exec w
        = (result, v.withSinks g (w.sinksOf g))
      ∧ CompleteRun limit (w.life g).phase ps result (v.life g).phase
      ∧ ((generateInto hooks patience g sink limit).exec w).2.sinksOf g = w.sinksOf g := by
  obtain ⟨cs, result, hexec, hrun⟩ := exec_completeRun_eq_callAll hquiet hcalm hends
  have hpresent := hquiet.present hcalm
  have hsame := hsinks.callAll hquiet cs hcalm
  have hgenerate := exec_attachFor hown ((World.hasGenerator_attached sink).1 hpresent) hexec hsame
  rw [World.life_attached] at hrun
  refine ⟨cs, _, result, _, rfl, hgenerate, hrun, ?_⟩
  unfold generateInto
  rw [hgenerate]
  exact World.sinksOf_withSinks
    (hquiet.present ((Calls.of_callAll hooks g calm _ cs).calm_end hquiet hcalm)) _

open Announcing Session in
/-- The second step of the run fails. -/
theorem generate_eq_calls_failingStep :
    let hooks := scriptHooks standardHost ⟨0⟩
    let sink := some (.recorder 1)
    (∃ cs ps result v, callAll hooks ⟨0⟩ ((stage threeSteps).attached ⟨0⟩ sink) cs = (ps, v)
      ∧ (generateInto hooks standardPatience ⟨0⟩ sink .unlimited).exec (stage threeSteps)
        = (result, v.withSinks ⟨0⟩ [.recorder 0])
      ∧ CompleteRun .unlimited .notStarted ps result (v.life ⟨0⟩).phase
      ∧ ((generateInto hooks standardPatience ⟨0⟩ sink .unlimited).exec
        (stage threeSteps)).2.sinksOf ⟨0⟩ = [.recorder 0])
    ∧ ((generateInto hooks standardPatience ⟨0⟩ sink .unlimited).exec
      (stage threeSteps)).1.isOk = false
    ∧ ((generateInto hooks standardPatience ⟨0⟩ sink .unlimited).exec
      (stage threeSteps)).2.life ⟨0⟩ = ⟨.ended, 1⟩ := by
  have hscript := announces_threeSteps
  have hstage : ((stage threeSteps).attached ⟨0⟩ (some (.recorder 1))).Stages (hostOfDepth 399)
      ⟨0⟩ threeSteps := by
    refine ⟨Nat.one_pos, rfl, fun s hs => ?_⟩
    have hs' : s ∈ [SinkRef.recorder 0, .recorder 1] := hs
    obtain rfl | rfl : s = .recorder 0 ∨ s = .recorder 1 := by simpa using hs'
    · exact ⟨_, passive_recorder 398 rfl⟩
    · exact ⟨_, passive_recorder 398 rfl⟩
  have hfails : ((pull (scriptHooks standardHost ⟨0⟩) ⟨0⟩).exec
      (callAll (scriptHooks standardHost ⟨0⟩) ⟨0⟩
        ((beginRun (scriptHooks standardHost ⟨0⟩) ⟨0⟩).exec
          ((stage threeSteps).attached ⟨0⟩ (some (.recorder 1)))).2
        (.replicate 1 .pull)).2).1.isOk = false := by decide +kernel
  refine ⟨?_, by decide +kernel, by decide +kernel⟩
  refine generate_eq_calls (hscript.quiet 399 ⟨0⟩) (hscript.leavesSinks 399 ⟨0⟩) (by decide) hstage
    fun _ v hbegun => ⟨1, by decide, fun h => ?_⟩
  rw [hbegun, h] at hfails
  cases hfails

end EvolvingGraph
