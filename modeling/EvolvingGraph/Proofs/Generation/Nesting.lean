/-
  EvolvingGraph.Proofs.Generation.Nesting
  ───────────────────────────────────────
  **GENERATORS THAT ARE CALLED WHILE THEY ARE CALLED.**

  The hook of a call may call the same generator again, and so may the sinks that
  are told of what the hook announces.  The phase is looked at before the hook is
  run and written when it has returned, so a call can find that the phase is not
  any more the one in which it was admitted.

  A course says which calls were admitted on the way from one world to another.
  They are taken down in the order in which their hooks come to an end, since the
  phase is written then; all else that happens leaves the lives of the generators
  and the lines about them in the log as they are, so that no run is left out.

  Main statements:
    * `Course.length_runLines` — what the log tells of runs is in the course;
    * `Course.linked` — the phase of a generator changes at these moments only;
    * `Course.lawful_iff` — which changes are those of a life in order;
    * `Course.overtaken_by` — calls that come in the way of others;
    * `Course.endsOnce` — when a run that has ended is not closed again.
-/
import EvolvingGraph.Proofs.Delivery.Keeping

namespace EvolvingGraph

/-! ## §1. Moments. -/

/-- The changes of phase in the life of a generator. -/
inductive Phase.Follows : Phase → Phase → Prop where
  | begun : Follows .notStarted .running
  | begunAgain : Follows .ended .running
  | exhausted : Follows .running .exhausted
  | ended : Follows .running .ended
  | endedExhausted : Follows .exhausted .ended

namespace Phase

variable {p : Phase}

theorem follows_running_iff : p.Follows .running ↔ p = .notStarted ∨ p = .ended := by
  refine ⟨fun h => ?_, ?_⟩
  · cases h <;> simp
  · rintro (rfl | rfl)
    · exact .begun
    · exact .begunAgain

theorem follows_exhausted_iff : p.Follows .exhausted ↔ p = .running := by
  refine ⟨fun h => ?_, ?_⟩
  · cases h
    rfl
  · rintro rfl
    exact .exhausted

theorem follows_ended_iff : p.Follows .ended ↔ p = .running ∨ p = .exhausted := by
  refine ⟨fun h => ?_, ?_⟩
  · cases h <;> simp
  · rintro (rfl | rfl)
    · exact .ended
    · exact .endedExhausted

end Phase

/-- A call that was admitted, at the moment when its hook has come to an end: what
has come of the hook, and which phase it has left. -/
structure Moment where
  generator : GeneratorRef
  call : GeneratorCall
  result : Except Error Bool
  before : Phase

namespace Moment

/-- The phase after the call.  A hook that has failed changes nothing. -/
def after (m : Moment) : Phase :=
  match m.call, m.result with
  | .begin, .ok _ => .running
  | .pull, .ok more => if more then m.before else .exhausted
  | .finish, .ok _ => .ended
  | _, .error _ => m.before

/-- The phase stays as it is, or one that may follow it does follow. -/
def Lawful (m : Moment) : Prop := m.after = m.before ∨ m.before.Follows m.after

/-- A run has begun. -/
def Begins (m : Moment) : Prop := m.call = .begin ∧ ∃ more, m.result = .ok more

/-- A step has said that no more is to come. -/
def Exhausts (m : Moment) : Prop := m.call = .pull ∧ m.result = .ok false

/-- A run has ended. -/
def Ends (m : Moment) : Prop := m.call = .finish ∧ ∃ more, m.result = .ok more

/-- How many lines about the call are in the log. -/
def lines (m : Moment) : Nat :=
  match m.call, m.result with
  | .begin, _ | .finish, .ok _ => 1
  | .pull, _ | .finish, .error _ => 0

/-- While the hook was running, other calls have overtaken this one: the run that it
closes, or finds exhausted, has ended, or the run that it begins is exhausted. -/
def Overtaken (m : Moment) : Prop :=
  match m.call, m.result with
  | .begin, .ok _ => m.before = .exhausted
  | .pull, .ok more => more = false ∧ m.before = .ended
  | .finish, _ => m.before = .ended
  | _, .error _ => False

variable {m : Moment}

theorem after_of_ends (h : m.Ends) : m.after = .ended := by
  obtain ⟨hcall, more, hresult⟩ := h
  simp [after, hcall, hresult]

/-- A generator that has been begun once is never again as if it had not been. -/
theorem after_ne_notStarted (h : m.before ≠ .notStarted) : m.after ≠ .notStarted := by
  rcases m with ⟨g, c, e | more, p⟩
  · cases c <;> exact h
  · cases c <;> cases more <;> simp_all [after]

/-- What has ended is ended until it is begun, unless the call was overtaken. -/
theorem after_eq_ended (hbefore : m.before = .ended) (hbegins : ¬ m.Begins)
    (hovertaken : ¬ m.Overtaken) : m.after = .ended := by
  rcases m with ⟨g, c, e | more, p⟩
  · cases c <;> exact hbefore
  · cases c with
    | begin => exact absurd ⟨rfl, more, rfl⟩ hbegins
    | pull =>
      cases more with
      | false => exact absurd ⟨rfl, hbefore⟩ hovertaken
      | true => exact hbefore
    | finish => rfl

theorem before_of_overtaken (h : m.Overtaken) :
    m.before = if m.call = .begin then .exhausted else .ended := by
  rcases m with ⟨g, c, e | more, p⟩
  · cases c with
    | begin => exact h.elim
    | pull => exact h.elim
    | finish => exact h
  · cases c with
    | begin => exact h
    | pull => exact h.2
    | finish => exact h

theorem ends_of_after_eq (hbefore : m.before ≠ .ended) (hafter : m.after = .ended) : m.Ends := by
  rcases m with ⟨g, c, e | more, p⟩
  · cases c <;> exact absurd hafter hbefore
  · cases c with
    | begin => simp [after] at hafter
    | pull => cases more <;> simp_all [after]
    | finish => exact ⟨rfl, more, rfl⟩

theorem exhausts_of_after_eq (hbefore : m.before ≠ .exhausted) (hafter : m.after = .exhausted) :
    m.Exhausts := by
  rcases m with ⟨g, c, e | more, p⟩
  · cases c <;> exact absurd hafter hbefore
  · cases c with
    | begin => simp [after] at hafter
    | pull => cases more <;> simp_all [after, Exhausts]
    | finish => simp [after] at hafter

/-- **A change is lawful unless the call was overtaken.**  To close once more what has
ended is no change. -/
theorem lawful_iff (h : m.call ≠ .begin → m.before ≠ .notStarted) :
    m.Lawful ↔ ¬ m.Overtaken ∨ m.call = .finish := by
  rcases m with ⟨g, c, e | more, p⟩
  · cases c <;> simp [Lawful, after, Overtaken]
  · cases c with
    | begin => cases p <;> simp [Lawful, after, Overtaken, Phase.follows_running_iff]
    | pull =>
      have hp : p ≠ .notStarted := h (by simp)
      cases more <;> cases p <;> simp_all [Lawful, after, Overtaken, Phase.follows_exhausted_iff]
    | finish =>
      have hp : p ≠ .notStarted := h (by simp)
      cases p <;> simp_all [Lawful, after, Phase.follows_ended_iff]

end Moment

/-! ## §2. Moments in a row. -/

/-- From one phase to another: each moment meets the phase that the one before it
has left. -/
def Linked : Phase → List Moment → Phase → Prop
  | p, [], q => p = q
  | p, m :: ms, q => m.before = p ∧ Linked m.after ms q

/-- Between the end of a run and the next closing, if there is one, a run has begun. -/
def EndsOnce (ms : List Moment) : Prop :=
  ∀ xs m ys m' zs, ms = xs ++ m :: (ys ++ m' :: zs) → m.Ends → m'.call = .finish →
    ∃ b ∈ ys, b.Begins

namespace Linked

variable {p q : Phase} {ms ms' : List Moment}

theorem append_iff : Linked p (ms ++ ms') q ↔ ∃ r, Linked p ms r ∧ Linked r ms' q := by
  induction ms generalizing p with
  | nil => simp [Linked]
  | cons m ms ih => simp [Linked, ih, and_assoc]

theorem ne_notStarted (h : Linked p ms q) (hp : p ≠ .notStarted) :
    q ≠ .notStarted ∧ ∀ m ∈ ms, m.before ≠ .notStarted := by
  induction ms generalizing p with
  | nil => exact ⟨h ▸ hp, by simp⟩
  | cons m ms ih =>
    obtain ⟨rfl, hrest⟩ := h
    obtain ⟨hq, hms⟩ := ih hrest (Moment.after_ne_notStarted hp)
    exact ⟨hq, List.forall_mem_cons.2 ⟨hp, hms⟩⟩

/-- A phase is come to at one of the moments. -/
theorem exists_after_eq (h : Linked p ms q) (hpq : p ≠ q) :
    ∃ m ∈ ms, m.before ≠ q ∧ m.after = q := by
  induction ms generalizing p with
  | nil => exact absurd h hpq
  | cons m ms ih =>
    obtain ⟨rfl, hrest⟩ := h
    by_cases hafter : m.after = q
    · exact ⟨m, List.mem_cons_self, hpq, hafter⟩
    · obtain ⟨m', hm', hchange⟩ := ih hrest hafter
      exact ⟨m', List.mem_cons_of_mem _ hm', hchange⟩

theorem eq_ended (h : Linked .ended ms q) (hbegins : ∀ m ∈ ms, ¬ m.Begins)
    (hovertaken : ∀ m ∈ ms, ¬ m.Overtaken) : q = .ended := by
  induction ms with
  | nil => exact h.symm
  | cons m ms ih =>
    rw [List.forall_mem_cons] at hbegins hovertaken
    obtain ⟨hbefore, hrest⟩ := h
    rw [Moment.after_eq_ended hbefore hbegins.1 hovertaken.1] at hrest
    exact ih hrest hbegins.2 hovertaken.2

/-- **Where no call is overtaken, a run that has ended is not closed again.** -/
theorem endsOnce (h : Linked p ms q) (hovertaken : ∀ m ∈ ms, ¬ m.Overtaken) : EndsOnce ms := by
  rintro xs m ys m' zs rfl hends hcloses
  by_contra hbegins
  push Not at hbegins
  obtain ⟨r, -, -, hrest⟩ := append_iff.1 h
  rw [Moment.after_of_ends hends] at hrest
  obtain ⟨r', hys, hmeets, -⟩ := append_iff.1 hrest
  have hended : r' = .ended :=
    hys.eq_ended hbegins fun y hy => hovertaken y (by simp [hy])
  -- the second closing meets the ended run
  refine hovertaken m' (by simp) ?_
  rw [hended] at hmeets
  rcases m' with ⟨g, c, _ | _, p'⟩ <;> subst hcloses <;> exact hmeets

end Linked

/-! ## §3. Courses. -/

/-- The moment of a call that is made in a world. -/
def GeneratorCall.moment (hooks : Hooks) (g : GeneratorRef) (w : World) (c : GeneratorCall) :
    Moment :=
  ⟨g, c, ((hooks.hook c).exec (c.prepared g w)).1,
    (((hooks.hook c).exec (c.prepared g w)).2.life g).phase⟩

/-- What has led from one world to another: the calls that were admitted, in the
order of their moments. -/
inductive Course : World → List Moment → World → Prop where
  | start (w : World) : Course w [] w
  /-- Something has happened that moves no generator. -/
  | elsewhere {w v v' : World} {ms : List Moment} :
    Course w ms v → v.KeepsRuns v' → Course w ms v'
  /-- A call was admitted; what its hook did has a course of its own. -/
  | called {hooks : Hooks} {g : GeneratorRef} {c : GeneratorCall} {w v : World}
    {ms nested : List Moment} :
    Course w ms v → c.admission (v.life g).phase = .runs →
    Course (c.prepared g v) nested ((hooks.hook c).exec (c.prepared g v)).2 →
    Course w (ms ++ nested ++ [c.moment hooks g v]) ((c.run hooks g).exec v).2

/-- The moments of one generator. -/
def momentsOf (g : GeneratorRef) (ms : List Moment) : List Moment :=
  ms.filter (·.generator = g)

theorem momentsOf_append (g : GeneratorRef) (ms ms' : List Moment) :
    momentsOf g (ms ++ ms') = momentsOf g ms ++ momentsOf g ms' := List.filter_append ..

section Calls

variable {hooks : Hooks} {c : GeneratorCall} {g g' : GeneratorRef} {v : World}

/-- Only to begin is a generator called that is not in a run. -/
theorem GeneratorCall.inRun_of_runs {p : Phase} (hc : c ≠ .begin) (h : c.admission p = .runs) :
    p ≠ .notStarted ∧ p ≠ .ended := by
  have hruns := admission_eq_runs_iff.1 h
  cases c with
  | begin => exact absurd rfl hc
  | pull => simp [show p = .running from hruns]
  | finish => rcases hruns with rfl | rfl <;> simp

theorem GeneratorCall.hasGenerator_prepared :
    (c.prepared g v).HasGenerator g' ↔ v.HasGenerator g' := by
  cases c with
  | begin => exact World.hasGenerator_withGenerator_iff (w := v.logged _) _
  | pull => rfl
  | finish => rfl

/-- Preparing a call changes no phase. -/
theorem GeneratorCall.phase_prepared (h : v.HasGenerator g') :
    ((c.prepared g v).life g').phase = (v.life g').phase := by
  cases c with
  | begin =>
    by_cases hg : g = g'
    · subst hg
      exact (congrArg Life.phase (World.life_withLife (w := v.logged _) h _)).trans rfl
    · exact congrArg Life.phase (World.life_withGenerator_of_ne (w := v.logged _) hg _)
  | pull => rfl
  | finish => rfl

theorem GeneratorCall.hasGenerator_settled (more : Bool) :
    (c.settled g more v).HasGenerator g' ↔ v.HasGenerator g' := by
  have hsettled : (v.withLife g ((v.life g).settled more c)).HasGenerator g' ↔ v.HasGenerator g' :=
    World.hasGenerator_withGenerator_iff _
  cases c <;> exact hsettled

theorem GeneratorCall.life_settled_of_ne (h : g ≠ g') (more : Bool) :
    (c.settled g more v).life g' = v.life g' := by
  have hsettled : (v.withLife g ((v.life g).settled more c)).life g' = v.life g' :=
    World.life_withGenerator_of_ne h _
  cases c <;> exact hsettled

theorem GeneratorCall.phase_settled (h : v.HasGenerator g) (more : Bool) :
    ((c.settled g more v).life g).phase = (Moment.mk g c (.ok more) (v.life g).phase).after := by
  have hsettled := congrArg Life.phase (World.life_withLife h ((v.life g).settled more c))
  cases c <;> exact hsettled

theorem GeneratorCall.length_runLines_prepared :
    (c.prepared g v).runLines.length = v.runLines.length + if c = .begin then 1 else 0 := by
  cases c with
  | begin =>
    show ((v.log ++ [_]).filter _).length = _
    rw [List.filter_append, List.length_append]
    rfl
  | pull => rfl
  | finish => rfl

theorem GeneratorCall.length_runLines_settled (more : Bool) :
    (c.settled g more v).runLines.length = v.runLines.length + if c = .finish then 1 else 0 := by
  cases c with
  | begin => rfl
  | pull => rfl
  | finish =>
    show ((v.log ++ [_]).filter _).length = _
    rw [List.filter_append, List.length_append]
    rfl

/-- What an admitted call writes into the log, besides what its hook does. -/
theorem GeneratorCall.length_runLines_run (hadmitted : c.admission (v.life g).phase = .runs)
    {n : Nat} (h : ((hooks.hook c).exec (c.prepared g v)).2.runLines.length
      = (c.prepared g v).runLines.length + n) :
    ((c.run hooks g).exec v).2.runLines.length
      = v.runLines.length + n + (c.moment hooks g v).lines := by
  rw [length_runLines_prepared] at h
  rw [exec_run, hadmitted]
  unfold moment
  rcases hhook : (hooks.hook c).exec (c.prepared g v) with ⟨e | more, u⟩ <;> rw [hhook] at h
  · refine h.trans ?_
    cases c with
    | begin => exact Nat.add_right_comm v.runLines.length 1 n
    | pull => rfl
    | finish => rfl
  · refine (length_runLines_settled more).trans ?_
    rw [h]
    cases c with
    | begin => exact Nat.add_right_comm v.runLines.length 1 n
    | pull => rfl
    | finish => rfl

/-- What an admitted call leaves. -/
theorem GeneratorCall.phase_run (hadmitted : c.admission (v.life g).phase = .runs)
    (h : ((hooks.hook c).exec (c.prepared g v)).2.HasGenerator g') :
    ((c.run hooks g).exec v).2.HasGenerator g'
      ∧ (((c.run hooks g).exec v).2.life g').phase = if g = g' then (c.moment hooks g v).after
        else (((hooks.hook c).exec (c.prepared g v)).2.life g').phase := by
  rw [exec_run, hadmitted]
  unfold moment
  rcases hhook : (hooks.hook c).exec (c.prepared g v) with ⟨e | more, u⟩ <;> rw [hhook] at h
  · refine ⟨h, ?_⟩
    by_cases hg : g = g'
    · subst hg
      -- a hook that has failed leaves its phase
      rw [if_pos rfl]
      cases c <;> rfl
    · rw [if_neg hg]
  · refine ⟨(hasGenerator_settled more).2 h, ?_⟩
    by_cases hg : g = g'
    · subst hg
      rw [if_pos rfl]
      exact phase_settled h more
    · rw [if_neg hg]
      exact congrArg Life.phase (life_settled_of_ne hg more)

end Calls

namespace Course

variable {g : GeneratorRef} {w v : World} {ms : List Moment}

/-- **Every line of the log that tells of a run belongs to one of the calls.** -/
theorem length_runLines (h : Course w ms v) :
    v.runLines.length = w.runLines.length + (ms.map Moment.lines).sum := by
  induction h with
  | start w => rfl
  | elsewhere _ same ih => rw [same.lines, ih]
  | called _ hadmitted _ ih ihnested =>
    rw [GeneratorCall.length_runLines_run hadmitted ihnested, ih]
    simp only [List.map_append, List.sum_append, List.map_cons, List.map_nil, List.sum_singleton]
    omega

/-- **The phase of a generator changes at the moments of its calls, and nowhere
else.** -/
theorem linked (h : Course w ms v) (hg : w.HasGenerator g) :
    v.HasGenerator g ∧ Linked (w.life g).phase (momentsOf g ms) (v.life g).phase := by
  induction h with
  | start w => exact ⟨hg, rfl⟩
  | elsewhere _ same ih =>
    obtain ⟨hv, hlinked⟩ := ih hg
    obtain ⟨hv', hlife⟩ := same.generators g hv
    exact ⟨hv', hlife ▸ hlinked⟩
  | @called hooks g' c w v ms nested _ hadmitted _ ih hnested =>
    -- what the hook did lies between the calls before and the moment of this one
    obtain ⟨hv, hlinked⟩ := ih hg
    obtain ⟨hu, hinner⟩ := hnested (GeneratorCall.hasGenerator_prepared.2 hv)
    rw [GeneratorCall.phase_prepared hv] at hinner
    obtain ⟨hafter, hphase⟩ := GeneratorCall.phase_run hadmitted hu
    refine ⟨hafter, ?_⟩
    rw [hphase, momentsOf_append, momentsOf_append, Linked.append_iff]
    refine ⟨_, Linked.append_iff.2 ⟨_, hlinked, hinner⟩, ?_⟩
    by_cases hg' : g' = g
    · subst hg'
      have hself : momentsOf g' [c.moment hooks g' v] = [c.moment hooks g' v] :=
        List.filter_eq_self.2 (by simp [GeneratorCall.moment])
      rw [if_pos rfl, hself]
      exact ⟨rfl, rfl⟩
    · have hother : momentsOf g [c.moment hooks g' v] = [] :=
        List.filter_eq_nil_iff.2 (by simpa [GeneratorCall.moment] using hg')
      rw [if_neg hg', hother]
      exact rfl

/-- Only to begin can a generator be called that has not been begun before. -/
theorem before_ne_notStarted (h : Course w ms v) (hg : w.HasGenerator g) :
    ∀ m ∈ momentsOf g ms, m.call ≠ .begin → m.before ≠ .notStarted := by
  induction h with
  | start w => exact fun m hm => absurd hm List.not_mem_nil
  | elsewhere _ _ ih => exact ih hg
  | @called hooks g' c w v ms nested hbefore hadmitted hnested ih ihnested =>
    obtain ⟨hv, -⟩ := hbefore.linked hg
    have hprepared := GeneratorCall.hasGenerator_prepared (c := c) (g := g').2 hv
    intro m hm hcall
    rw [momentsOf_append, momentsOf_append] at hm
    obtain (hm | hm) | hm := List.mem_append.1 hm |>.imp_left List.mem_append.1
    · exact ih hg m hm hcall
    · exact ihnested hprepared m hm hcall
    · obtain ⟨hm, hgenerator⟩ := List.mem_filter.1 hm
      obtain rfl := List.mem_singleton.1 hm
      obtain rfl : g' = g := of_decide_eq_true hgenerator
      -- it was admitted in a phase that is left only for later ones
      obtain ⟨hphase, -⟩ := GeneratorCall.inRun_of_runs hcall hadmitted
      obtain ⟨-, hlinked⟩ := hnested.linked hprepared
      rw [GeneratorCall.phase_prepared hv] at hlinked
      exact (hlinked.ne_notStarted hphase).1

/-- **The changes of phase are those of a life in order, unless a call is overtaken by
calls that its hook makes.** -/
theorem lawful_iff (h : Course w ms v) (hg : w.HasGenerator g) :
    ∀ m ∈ momentsOf g ms, m.Lawful ↔ ¬ m.Overtaken ∨ m.call = .finish :=
  fun m hm => m.lawful_iff (h.before_ne_notStarted hg m hm)

/-- **A call is overtaken only by calls that its hook makes:** a pull and a closing by
one that ends the run, a beginning by one that exhausts it. -/
theorem overtaken_by {hooks : Hooks} {c : GeneratorCall} {nested : List Moment}
    (hadmitted : c.admission (v.life g).phase = .runs) (hg : v.HasGenerator g)
    (h : Course (c.prepared g v) nested ((hooks.hook c).exec (c.prepared g v)).2)
    (hovertaken : (c.moment hooks g v).Overtaken) :
    ∃ m ∈ momentsOf g nested, if c = .begin then m.Exhausts else m.Ends := by
  obtain ⟨-, hlinked⟩ := h.linked (GeneratorCall.hasGenerator_prepared.2 hg)
  rw [GeneratorCall.phase_prepared hg] at hlinked
  have hmeets : (((hooks.hook c).exec (c.prepared g v)).2.life g).phase
      = if c = .begin then .exhausted else .ended := Moment.before_of_overtaken hovertaken
  rw [hmeets] at hlinked
  -- the call was admitted in another phase, so the hook has come to this one
  by_cases hc : c = .begin
  · subst hc
    have hphase : (v.life g).phase ≠ .exhausted := by
      rcases GeneratorCall.admission_eq_runs_iff.1 hadmitted with h | h <;> simp [h]
    obtain ⟨m, hm, hbefore, hafter⟩ := hlinked.exists_after_eq hphase
    exact ⟨m, hm, Moment.exhausts_of_after_eq hbefore hafter⟩
  · rw [if_neg hc] at hlinked
    obtain ⟨-, hphase⟩ := GeneratorCall.inRun_of_runs hc hadmitted
    obtain ⟨m, hm, hbefore, hafter⟩ := hlinked.exists_after_eq hphase
    exact ⟨m, hm, by rw [if_neg hc]; exact Moment.ends_of_after_eq hbefore hafter⟩

/-- **Where no call is overtaken, a run that has ended is not closed again.** -/
theorem endsOnce (h : Course w ms v) (hg : w.HasGenerator g)
    (hovertaken : ∀ m ∈ momentsOf g ms, ¬ m.Overtaken) : EndsOnce (momentsOf g ms) :=
  (h.linked hg).2.endsOnce hovertaken

end Course

end EvolvingGraph
