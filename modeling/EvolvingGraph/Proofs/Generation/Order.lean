/-
  EvolvingGraph.Proofs.Generation.Order
  ─────────────────────────────────────
  **THE ORDER OF CALLS TO A GENERATOR.**

  A generator is begun, pulled any number of times and finished, and then it can
  be begun again: the calls that come through are those of complete runs, one
  after the other, and of the start of another one.  This is a language
  (`GeneratorCall.runs`), and whether calls begin a word of it is seen by keeping
  track of whether a run is under way.

  What came of calls, one after the other, is a list of passages.  Which of them
  can follow each other is decided by the life of the generator alone
  (`Life.Permits`), and everything that is said here of the order of passages
  follows from that.

  Main statements:
    * `GeneratorCall.exists_append_mem_runs_iff` — which calls begin a word of runs;
    * `Life.Permits.phase_eq`, `Life.stepCount_passAll` — what the life of a
      generator is after calls;
    * `Life.Permits.stepsWithinRuns` — when the hook of a pull is run.
-/
import Mathlib.Computability.Language
import EvolvingGraph.Proofs.Generation.Calls

namespace EvolvingGraph

/-! ## §1. Complete runs. -/

namespace GeneratorCall

open Computability

/-- Complete runs, one after the other: begin, any number of pulls, finish. -/
def runs : Language GeneratorCall :=
  (({[begin]} : Language GeneratorCall) * ({[pull]} : Language GeneratorCall)∗ * {[finish]})∗

/-- Whether a run is under way after a call, if the call is in order. -/
def advance : Option Bool → GeneratorCall → Option Bool
  | some false, begin => some true
  | some true, pull => some true
  | some true, finish => some false
  | _, _ => none

/-- Whether a run is under way after calls, if these are in order. -/
def underway (cs : List GeneratorCall) : Option Bool := cs.foldl advance (some false)

variable {cs : List GeneratorCall}

theorem foldl_advance_none (cs : List GeneratorCall) : cs.foldl advance none = none := by
  induction cs with
  | nil => rfl
  | cons c cs ih => exact ih

theorem foldl_advance_pulls {cs : List GeneratorCall}
    (h : cs ∈ ({[pull]} : Language GeneratorCall)∗) : cs.foldl advance (some true) = some true := by
  obtain ⟨parts, rfl, hparts⟩ := Language.mem_kstar.1 h
  clear h
  induction parts with
  | nil => rfl
  | cons part parts ih =>
    obtain rfl : part = [pull] := hparts part List.mem_cons_self
    exact ih fun y hy => hparts y (List.mem_cons_of_mem _ hy)

/-- After a complete run none is under way. -/
theorem foldl_advance_run {cs : List GeneratorCall}
    (h : cs ∈ ({[begin]} : Language GeneratorCall) * ({[pull]} : Language GeneratorCall)∗
      * {[finish]}) : cs.foldl advance (some false) = some false := by
  obtain ⟨front, ⟨start, rfl, pulls, hpulls, rfl⟩, last, rfl, rfl⟩ := h
  show (([begin] ++ pulls) ++ [finish]).foldl advance (some false) = _
  rw [List.foldl_append, List.foldl_append]
  show [finish].foldl advance (pulls.foldl advance (some true)) = _
  rw [foldl_advance_pulls hpulls]
  rfl

theorem underway_of_mem_runs (h : cs ∈ runs) : underway cs = some false := by
  obtain ⟨parts, rfl, hparts⟩ := Language.mem_kstar.1 h
  clear h
  unfold underway
  induction parts with
  | nil => rfl
  | cons part parts ih =>
    rw [List.flatten_cons, List.foldl_append, foldl_advance_run (hparts part List.mem_cons_self)]
    exact ih fun y hy => hparts y (List.mem_cons_of_mem _ hy)

theorem append_run_mem_runs {done pulls : List GeneratorCall} (hdone : done ∈ runs)
    (hpulls : pulls ∈ ({[pull]} : Language GeneratorCall)∗) :
    done ++ (begin :: pulls) ++ [finish] ∈ runs := by
  obtain ⟨parts, rfl, hparts⟩ := Language.mem_kstar.1 hdone
  refine Language.mem_kstar.2 ⟨parts ++ [begin :: pulls ++ [finish]], by simp, fun y hy => ?_⟩
  obtain hy | hy := List.mem_append.1 hy
  · exact hparts y hy
  · rw [List.mem_singleton.1 hy]
    exact Language.append_mem_mul (Language.append_mem_mul (a := [begin]) rfl hpulls) rfl

/-- Calls in order are complete runs, and perhaps the start of another one. -/
theorem of_underway : (underway cs = some false → cs ∈ runs)
    ∧ (underway cs = some true → ∃ done ∈ runs,
      ∃ pulls ∈ ({[pull]} : Language GeneratorCall)∗, cs = done ++ (begin :: pulls)) := by
  induction cs using List.reverseRecOn with
  | nil => exact ⟨fun _ => Language.nil_mem_kstar _, nofun⟩
  | append_singleton cs c ih =>
    obtain ⟨hclosed, hopen⟩ := ih
    have hlast : underway (cs ++ [c]) = advance (underway cs) c := List.foldl_concat ..
    rw [hlast]
    rcases hcs : underway cs with _ | _ | _
    · exact ⟨nofun, nofun⟩
    · -- no run is under way, so the call begins one
      refine ⟨fun h => absurd h (by cases c <;> decide), fun h => ?_⟩
      obtain rfl : c = begin := by
        cases c with
        | begin => rfl
        | pull => cases h
        | finish => cases h
      exact ⟨cs, hclosed hcs, [], Language.nil_mem_kstar _, rfl⟩
    · obtain ⟨done, hdone, pulls, hpulls, rfl⟩ := hopen hcs
      cases c with
      | begin => exact ⟨nofun, nofun⟩
      | pull =>
        refine ⟨nofun, fun _ => ⟨done, hdone, pulls ++ [pull], ?_, by simp⟩⟩
        obtain ⟨parts, rfl, hparts⟩ := Language.mem_kstar.1 hpulls
        refine Language.mem_kstar.2 ⟨parts ++ [[pull]], by simp, fun y hy => ?_⟩
        obtain hy | hy := List.mem_append.1 hy
        · exact hparts y hy
        · exact List.mem_singleton.1 hy
      | finish => exact ⟨fun _ => append_run_mem_runs hdone hpulls, nofun⟩

theorem exists_append_mem_runs_iff : (∃ rest, cs ++ rest ∈ runs) ↔ underway cs ≠ none := by
  constructor
  · rintro ⟨rest, hrest⟩ hnone
    have hunderway := underway_of_mem_runs hrest
    rw [underway, List.foldl_append, ← underway, hnone, foldl_advance_none] at hunderway
    cases hunderway
  · intro h
    obtain ⟨hclosed, hopen⟩ := @of_underway cs
    rcases hcs : underway cs with _ | _ | _
    · exact absurd hcs h
    · refine ⟨[], ?_⟩
      rw [List.append_nil]
      exact hclosed hcs
    · obtain ⟨done, hdone, pulls, hpulls, rfl⟩ := hopen hcs
      exact ⟨[finish], append_run_mem_runs hdone hpulls⟩

end GeneratorCall

/-! ## §2. Passages that can follow each other. -/

namespace Passage

/-- The call and its answer, if it has come through. -/
def completed? : Passage → Option (GeneratorCall × Bool)
  | ran c (.ok more) => some (c, more)
  | idle => some (.pull, false)
  | ran _ (.error _) | refused .. => none

/-- Whether a begin was admitted. -/
def restarts : Passage → Bool
  | ran .begin _ => true
  | _ => false

/-- Whether the hook of a pull has returned. -/
def stepped : Passage → Bool
  | ran .pull (.ok _) => true
  | _ => false

/-- Whether no step can follow in the same run. -/
def stopsSteps : Passage → Bool
  | ran .pull (.ok more) => !more
  | ran .finish (.ok _) => true
  | _ => false

end Passage

/-- The calls that have come through, with their answers. -/
def completed (ps : List Passage) : List (GeneratorCall × Bool) := ps.filterMap Passage.completed?

theorem completed_concat (ps : List Passage) (p : Passage) :
    completed (ps ++ [p]) = completed ps ++ p.completed?.toList := by
  unfold completed
  rw [List.filterMap_append]
  cases hcompleted : p.completed? <;> simp [hcompleted]

/-- The phase of a generator after a call has come through. -/
def Phase.next (p : Phase) : GeneratorCall × Bool → Phase
  | (.begin, _) => .running
  | (.pull, more) => if more then p else .exhausted
  | (.finish, _) => .ended

/-- How many hooks of pulls have returned since a begin was admitted last. -/
def stepsSinceBegin (ps : List Passage) : Nat :=
  (ps.reverse.takeWhile fun p => !p.restarts).countP Passage.stepped

/-- The hook of a pull is run only after the hook of a begin has returned, and not
after a step in the same run that said that no more is to come. -/
def StepsWithinRuns (ps : List Passage) : Prop :=
  ∀ before result after, ps = before ++ .ran .pull result :: after →
    ∃ done more current, before = done ++ .ran .begin (.ok more) :: current
      ∧ ∀ p ∈ current, p.stopsSteps = false

/-- Whether a run is under way in a phase. -/
def Phase.inRun : Phase → Bool
  | .running | .exhausted => true
  | .notStarted | .ended => false

theorem GeneratorCall.misplaced_iff {p : Phase} {c : GeneratorCall} :
    c.Misplaced p ↔ GeneratorCall.advance (some p.inRun) c = none := by
  cases c <;> cases p <;> simp [Misplaced, advance, Phase.inRun]

namespace Life

/-- The life of a generator after calls. -/
def passAll (life : Life) (ps : List Passage) : Life := ps.foldl pass life

/-- Whether passages can follow each other, from a point of the life on. -/
def Permits (life : Life) : List Passage → Prop
  | [] => True
  | p :: ps => p.Possible life.phase ∧ (life.pass p).Permits ps

variable {life : Life} {ps qs : List Passage} {p : Passage}

@[simp] theorem passAll_nil (life : Life) : life.passAll [] = life := rfl

theorem passAll_append (life : Life) (ps qs : List Passage) :
    life.passAll (ps ++ qs) = (life.passAll ps).passAll qs := List.foldl_append

theorem passAll_concat (life : Life) (ps : List Passage) (p : Passage) :
    life.passAll (ps ++ [p]) = (life.passAll ps).pass p := passAll_append life ps [p]

theorem permits_append :
    life.Permits (ps ++ qs) ↔ life.Permits ps ∧ (life.passAll ps).Permits qs := by
  induction ps generalizing life with
  | nil => simp [Permits]
  | cons p ps ih =>
    show p.Possible life.phase ∧ (life.pass p).Permits (ps ++ qs) ↔ _
    rw [ih, ← and_assoc]
    rfl

theorem permits_concat :
    life.Permits (ps ++ [p]) ↔ life.Permits ps ∧ p.Possible (life.passAll ps).phase := by
  simp [permits_append, Permits]

/-- A call that has come through moves the phase on, and any other leaves it. -/
theorem phase_pass (h : p.Possible life.phase) :
    (life.pass p).phase = p.completed?.toList.foldl Phase.next life.phase := by
  cases p with
  | refused c e => rfl
  | idle => exact h
  | ran c result =>
    cases c <;> cases result <;> rfl

theorem inRun_pass (h : p.Possible life.phase) :
    (p.completed?.toList.map Prod.fst).foldl GeneratorCall.advance (some life.phase.inRun)
      = some (life.pass p).phase.inRun := by
  cases p with
  | refused c e => rfl
  | idle =>
    have hphase : life.phase = .exhausted := h
    simp [Passage.completed?, pass, hphase, GeneratorCall.advance, Phase.inRun]
  | ran c result =>
    have hadmitted := GeneratorCall.admission_eq_runs_iff.1 h
    cases c with
    | begin =>
      cases result with
      | error e => rfl
      | ok more =>
        obtain hphase | hphase := hadmitted <;>
          simp [Passage.completed?, pass, hphase, GeneratorCall.advance, Phase.inRun]
    | pull =>
      have hphase : life.phase = .running := hadmitted
      cases result with
      | error e => rfl
      | ok more =>
        cases more <;>
          simp [Passage.completed?, pass, settled, hphase, GeneratorCall.advance, Phase.inRun]
    | finish =>
      cases result with
      | error e => rfl
      | ok more =>
        obtain hphase | hphase := hadmitted <;>
          simp [Passage.completed?, pass, hphase, GeneratorCall.advance, Phase.inRun]

namespace Permits

/-- **The phase of a generator is a function of the calls that came through.** -/
theorem phase_eq (h : life.Permits ps) :
    (life.passAll ps).phase = (completed ps).foldl Phase.next life.phase := by
  induction ps using List.reverseRecOn with
  | nil => rfl
  | append_singleton ps p ih =>
    obtain ⟨hps, hp⟩ := permits_concat.1 h
    rw [passAll_concat, phase_pass hp, completed_concat, List.foldl_append, ih hps]

/-- A run is under way if the calls that came through say so. -/
theorem underway_eq (h : life.Permits ps) :
    ((completed ps).map Prod.fst).foldl GeneratorCall.advance (some life.phase.inRun)
      = some (life.passAll ps).phase.inRun := by
  induction ps using List.reverseRecOn with
  | nil => rfl
  | append_singleton ps p ih =>
    obtain ⟨hps, hp⟩ := permits_concat.1 h
    rw [completed_concat, List.map_append, List.foldl_append, ih hps, inRun_pass hp, passAll_concat]

end Permits

/-- **Steps are counted from the last begin that was admitted.** -/
theorem stepCount_passAll (hzero : life.stepCount = 0) (ps : List Passage) :
    (life.passAll ps).stepCount = stepsSinceBegin ps := by
  induction ps using List.reverseRecOn with
  | nil => exact hzero
  | append_singleton ps p ih =>
    unfold stepsSinceBegin at ih ⊢
    rw [passAll_concat, List.reverse_concat, List.takeWhile_cons]
    cases p with
    | refused c e => simpa [pass, Passage.restarts, Passage.stepped] using ih
    | idle => simpa [pass, Passage.restarts, Passage.stepped] using ih
    | ran c result =>
      cases c <;> cases result <;>
        simp [pass, settled, Passage.restarts, Passage.stepped, ih, List.countP_cons]

/-- A running generator was begun, and has neither been finished nor exhausted since. -/
theorem Permits.exists_begin (hstart : life.phase = .notStarted)
    (hrunning : (life.passAll ps).phase = .running) :
    ∃ done more current, ps = done ++ .ran .begin (.ok more) :: current
      ∧ ∀ p ∈ current, p.stopsSteps = false := by
  induction ps using List.reverseRecOn with
  | nil =>
    rw [passAll_nil, hstart] at hrunning
    cases hrunning
  | append_singleton ps p ih =>
    rw [passAll_concat] at hrunning
    -- a passage that leaves the phase and stops no steps belongs to the same run
    have hsame (hphase : ((life.passAll ps).pass p).phase = (life.passAll ps).phase)
        (hp : p.stopsSteps = false) : ∃ done more current,
        ps ++ [p] = done ++ .ran .begin (.ok more) :: current
          ∧ ∀ q ∈ current, q.stopsSteps = false := by
      obtain ⟨done, more, current, hps, hcurrent⟩ := ih (hphase ▸ hrunning)
      refine ⟨done, more, current ++ [p], by rw [hps]; simp, fun q hq => ?_⟩
      obtain hq | hq := List.mem_append.1 hq
      · exact hcurrent q hq
      · rw [List.mem_singleton.1 hq]
        exact hp
    cases p with
    | refused c e => exact hsame rfl rfl
    | idle => exact hsame rfl rfl
    | ran c result =>
      rcases result with e | more
      · cases c <;> exact hsame rfl rfl
      · cases c with
        | begin => exact ⟨ps, more, [], rfl, by simp⟩
        | pull =>
          cases more with
          | true => exact hsame rfl rfl
          | false => cases hrunning
        | finish => cases hrunning

/-- **The hook of a pull is run within runs only.** -/
theorem Permits.stepsWithinRuns (h : life.Permits ps) (hstart : life.phase = .notStarted) :
    StepsWithinRuns ps := by
  rintro before result after rfl
  have hpull := (permits_append.1 h).2.1
  exact exists_begin hstart (GeneratorCall.admission_eq_runs_iff.1 hpull)

end Life
end EvolvingGraph
