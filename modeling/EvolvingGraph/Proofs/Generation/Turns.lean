/-
  EvolvingGraph.Proofs.Generation.Turns
  ─────────────────────────────────────
  **WHAT ONE PULL OF AN ITERATOR DOES TO THE GENERATOR BEHIND IT.**

  An iterator over the steps of a run makes its calls to the generator when it is
  pulled or closed.  At the first pull it begins the run; at each pull it pulls the
  generator, if the limit allows, and unless there is an item to be given, it
  finishes the run.  Closing it in between finishes the run as well.

  The calls of a turn are written down here (`IteratorCall.calls`); that the
  iterator makes these and no others is a part of `IteratorCall.ComesTo`.  What can
  come of a turn is a `Stint`.

  Main statements:
    * `leg_continueRun` — what can come of going on with a run;
    * `IteratorCall.comesTo` — a turn is its calls to the generator, and a stint;
    * `exec_nextItem_refused`, `exec_closeCursor_idle` — turns without a run.
-/
import EvolvingGraph.Iteration
import EvolvingGraph.Proofs.Generation.CompleteRun

namespace EvolvingGraph

/-! ## §1. Iterators of a world. -/

namespace World

/-- The iterator at a reference. -/
def cursorAt (w : World) (c : CursorRef) : Cursor := w.cursors.get c.index

/-- The world with another state of an iterator. -/
def withCursor (w : World) (c : CursorRef) (state : CursorState) : World :=
  { w with cursors := w.cursors.set c.index ⟨(w.cursorAt c).source, state⟩ }

/-- An iterator goes through the steps of a generator, up to a limit. -/
def Iterates (w : World) (g : GeneratorRef) (limit : Limit) (c : CursorRef) : Prop :=
  (w.cursorAt c).source = .run g limit

variable {w : World} {g : GeneratorRef} {limit : Limit} {c c' : CursorRef}

theorem present_of_cursorAt_ne (h : w.cursorAt c ≠ default) : c.index < w.cursors.size := by
  by_contra hc
  refine h ?_
  unfold cursorAt Heap.get
  rw [List.getD_eq_default _ _ (Nat.not_lt.1 hc)]

theorem cursorAt_withCursor_self (h : w.cursorAt c ≠ default) (state : CursorState) :
    (w.withCursor c state).cursorAt c = ⟨(w.cursorAt c).source, state⟩ :=
  Heap.get_set_self (present_of_cursorAt_ne h) _

theorem Iterates.ne_default (h : w.Iterates g limit c) : w.cursorAt c ≠ default := by
  intro hdefault
  unfold Iterates at h
  rw [hdefault] at h
  cases h

theorem Iterates.present (h : w.Iterates g limit c) : c.index < w.cursors.size :=
  present_of_cursorAt_ne h.ne_default

theorem cursorAt_withCursor (h : w.Iterates g limit c) (state : CursorState) :
    (w.withCursor c state).cursorAt c = ⟨.run g limit, state⟩ := by
  rw [cursorAt_withCursor_self h.ne_default, h]

theorem cursorAt_withCursor_of_ne (h : c ≠ c') (state : CursorState) :
    (w.withCursor c state).cursorAt c' = w.cursorAt c' :=
  Heap.get_set_of_ne (fun hindex => h (by cases c; cases c'; exact congrArg _ hindex)) _

theorem withCursor_withCursor (h : w.Iterates g limit c) (state state' : CursorState) :
    (w.withCursor c state).withCursor c state' = w.withCursor c state' := by
  have hsource : ((w.withCursor c state).cursorAt c).source = (w.cursorAt c).source := by
    rw [cursorAt_withCursor h, h]
  have hcursors : (w.cursors.set c.index ⟨(w.cursorAt c).source, state⟩).set c.index
      ⟨((w.withCursor c state).cursorAt c).source, state'⟩
      = w.cursors.set c.index ⟨(w.cursorAt c).source, state'⟩ := by
    rw [Heap.set_set, hsource]
  exact congrArg (fun cursors => ({ w with cursors := cursors } : World)) hcursors

@[simp] theorem life_withCursor (state : CursorState) :
    (w.withCursor c state).life g = w.life g := rfl

/-- The iterators over a generator are left alone; there may be new ones. -/
structure SparesIterators (w : World) (g : GeneratorRef) (w' : World) : Prop where
  kept : ∀ {limit c}, w.Iterates g limit c → w'.cursorAt c = w.cursorAt c
  fresh : ∀ {limit c}, w'.Iterates g limit c → (∀ limit', ¬ w.Iterates g limit' c) →
    (w'.cursorAt c).state = .fresh

namespace SparesIterators

theorem of_cursors_eq {w' : World} (h : w'.cursors = w.cursors) : w.SparesIterators g w' where
  kept := fun _ => by rw [cursorAt, h, cursorAt]
  fresh := fun hc hnew => by
    unfold Iterates cursorAt at hc hnew
    rw [h] at hc
    exact absurd hc (hnew _)

theorem trans {w' w'' : World} (h : w.SparesIterators g w') (h' : w'.SparesIterators g w'') :
    w.SparesIterators g w'' where
  kept := fun hc => by
    have hkept := h.kept hc
    have hc' : w'.Iterates g _ _ := (congrArg Cursor.source hkept).trans hc
    exact (h'.kept hc').trans hkept
  fresh := fun {_ c} hc hnew => by
    by_cases hc' : ∃ limit', w'.Iterates g limit' c
    · obtain ⟨limit', hc'⟩ := hc'
      rw [h'.kept hc']
      exact h.fresh hc' hnew
    · exact h'.fresh hc fun limit' hlimit => hc' ⟨limit', hlimit⟩

/-- An iterator that is written before and afterwards may be written alike instead. -/
theorem withCursor {v : World} {s : CursorState} (hc : w.Iterates g limit c)
    (h : (w.withCursor c s).SparesIterators g v) (s' : CursorState) :
    (w.withCursor c s').SparesIterators g (v.withCursor c s') := by
  have hv : v.Iterates g limit c := by
    have hbefore := cursorAt_withCursor hc s
    rw [Iterates, h.kept (congrArg Cursor.source hbefore), hbefore]
  have hself : (v.withCursor c s').cursorAt c = (w.withCursor c s').cursorAt c :=
    (cursorAt_withCursor hv s').trans (cursorAt_withCursor hc s').symm
  constructor
  · intro limit' c' hc'
    by_cases hne : c = c'
    · rw [← hne, hself]
    · rw [Iterates, cursorAt_withCursor_of_ne hne] at hc'
      rw [cursorAt_withCursor_of_ne hne, cursorAt_withCursor_of_ne hne]
      have hbefore := cursorAt_withCursor_of_ne (w := w) hne s
      exact (h.kept ((congrArg Cursor.source hbefore).trans hc')).trans hbefore
  · intro limit' c' hc' hnew
    by_cases hne : c = c'
    · rw [← hne] at hc' hnew
      rw [Iterates, hself] at hc'
      exact absurd hc' (hnew limit')
    · rw [Iterates, cursorAt_withCursor_of_ne hne] at hc'
      rw [cursorAt_withCursor_of_ne hne]
      refine h.fresh hc' fun limit'' hlimit => hnew limit'' ?_
      rw [Iterates, cursorAt_withCursor_of_ne hne] at hlimit ⊢
      exact hlimit

end SparesIterators
end World

namespace Run

@[simp] theorem exec_setCursor (c : CursorRef) (state : CursorState) (w : World) :
    exec (World.setCursor c state) w = (.ok ⟨⟩, w.withCursor c state) := rfl

@[simp] theorem exec_cursorAt (c : CursorRef) (w : World) :
    exec (World.cursor c) w = (.ok (w.cursorAt c), w) := rfl

end Run

/-- The hooks of a generator leave the iterators over it alone.  Whether a world is
calm does not depend on them. -/
structure Hooks.SparesIterators (hooks : Hooks) (g : GeneratorRef) (calm : World → Prop) :
    Prop where
  withCursor : ∀ {w : World} {limit : Limit} {c : CursorRef} (state : CursorState), calm w →
    w.Iterates g limit c → calm (w.withCursor c state)
  hook : ∀ (c : GeneratorCall) {w : World}, calm w →
    w.SparesIterators g ((hooks.hook c).exec w).2

namespace Hooks.SparesIterators

variable {hooks : Hooks} {g : GeneratorRef} {calm : World → Prop} {w : World}

theorem run (h : hooks.SparesIterators g calm) (hquiet : hooks.Quiet g calm) (c : GeneratorCall)
    (hw : calm w) : w.SparesIterators g ((c.run hooks g).exec w).2 := by
  have hprepared : w.SparesIterators g (c.prepared g w) := by
    cases c <;> exact .of_cursors_eq rfl
  have hsettled (more : Bool) (v : World) : v.SparesIterators g (c.settled g more v) := by
    cases c <;> exact .of_cursors_eq rfl
  rw [GeneratorCall.exec_run]
  cases c.admission (w.life g).phase with
  | refuses e => exact .of_cursors_eq rfl
  | idles => exact .of_cursors_eq rfl
  | runs =>
    have hhook := hprepared.trans (h.hook c (hquiet.prepared c hw))
    dsimp only
    rcases hexec : (hooks.hook c).exec (c.prepared g w) with ⟨e | more, v⟩ <;> rw [hexec] at hhook
    · exact hhook
    · exact hhook.trans (hsettled more v)

theorem callAll (h : hooks.SparesIterators g calm) (hquiet : hooks.Quiet g calm)
    (cs : List GeneratorCall) (hw : calm w) :
    w.SparesIterators g (callAll hooks g w cs).2 := by
  induction cs generalizing w with
  | nil => exact .of_cursors_eq rfl
  | cons c cs ih => exact (h.run hquiet c hw).trans (ih (hquiet.life_run c hw).1)

end Hooks.SparesIterators

/-! ## §2. The calls of a turn. -/

/-- What can be asked of an iterator. -/
inductive IteratorCall where
  | next (c : CursorRef)
  | close (c : CursorRef)

/-- The calls by which a run is continued after some pulls: one more pull, if the
limit allows, and unless this says that more is to come, a finish. -/
def continuation (hooks : Hooks) (g : GeneratorRef) (limit : Limit) (made : Nat) (w : World) :
    List GeneratorCall :=
  if limit.allows made then
    match (pull hooks g).exec w with
    | (.ok true, _) => [.pull]
    | _ => [.pull, .finish]
  else [.finish]

namespace IteratorCall

def cursor : IteratorCall → CursorRef
  | next c | close c => c

/-- Make a call to an iterator.  Closing it gives nothing. -/
def run (hooksOf : GeneratorRef → Hooks) : IteratorCall → Run (Option Value)
  | next c => nextItem hooksOf c
  | close c => do
    closeCursor hooksOf c
    return none

/-- The world while an iterator is pulled or closed. -/
def during (w : World) (op : IteratorCall) : World := w.withCursor op.cursor .busy

/-- The calls to its generator that an iterator makes. -/
def calls (hooks : Hooks) (g : GeneratorRef) (w : World) (op : IteratorCall) :
    List GeneratorCall :=
  match op, (w.cursorAt op.cursor).source, (w.cursorAt op.cursor).state with
  | next _, .run _ limit, .fresh =>
    match (GeneratorCall.begin.run hooks g).exec (op.during w) with
    | (.ok _, v) => .begin :: continuation hooks g limit 0 v
    | (.error _, _) => [.begin]
  | next _, .run _ limit, .paused made => continuation hooks g limit made (op.during w)
  | close _, .run .., .paused _ => [.finish]
  | _, _, _ => []

/-- What comes of these calls. -/
def passages (hooks : Hooks) (g : GeneratorRef) (w : World) (op : IteratorCall) : List Passage :=
  (callAll hooks g (op.during w) (op.calls hooks g w)).1

end IteratorCall

/-! ## §3. Pulls of an iterator. -/

section Pulls

variable {hooks : Hooks} {hooksOf : GeneratorRef → Hooks} {g : GeneratorRef} {limit : Limit}
  {c : CursorRef} {w : World}

theorem exec_whileBusy (c : CursorRef) (x : Run Pulled) (w : World) :
    (whileBusy c x).exec w = match x.exec (w.withCursor c .busy) with
      | (.ok (some (v, state)), u) => (.ok (some v), u.withCursor c state)
      | (.ok none, u) => (.ok none, u.withCursor c .finished)
      | (.error e, u) => (.error e, u.withCursor c .finished) := by
  unfold whileBusy
  simp only [Run.exec_bind, Run.exec_setCursor, Run.exec_attempt]
  rcases x.exec (w.withCursor c .busy) with ⟨e | _ | ⟨v, state⟩, u⟩ <;> rfl

theorem exec_pullStep (made : Nat) : (pullStep hooks g limit made).exec w
    = if limit.allows made then match (pull hooks g).exec w with
        | (.ok true, v) => (.ok (some (.int (made + 1 : Nat), .paused (made + 1))), v)
        | (.ok false, v) => (.ok none, v)
        | (.error e, v) => (.error e, v)
      else (.ok none, w) := by
  unfold pullStep
  split
  · rw [Run.exec_bind]
    rcases (pull hooks g).exec w with ⟨e | _ | _, v⟩ <;> rfl
  · rfl

theorem exec_continueRun (made : Nat) : (continueRun hooks g limit made).exec w
    = match (pullStep hooks g limit made).exec w with
      | (.ok (some pulled), v) => (.ok (some pulled), v)
      | (result, v) => match (GeneratorCall.finish.run hooks g).exec v with
        | (.ok _, u) => (result, u)
        | (.error e, u) => (.error e, u) := by
  unfold continueRun
  simp only [Run.exec_bind, Run.exec_attempt, GeneratorCall.run]
  rcases (pullStep hooks g limit made).exec w with ⟨e | _ | pulled, v⟩
  · dsimp only
    rw [Run.exec_bind]
    rcases (endRun hooks g).exec v with ⟨_ | _, _⟩ <;> rfl
  · dsimp only
    rw [Run.exec_bind]
    rcases (endRun hooks g).exec v with ⟨_ | _, _⟩ <;> rfl
  · rfl

/-- An iterator that is pulled does so by its source and the state that it is in. -/
theorem exec_nextItem {source : CursorSource} {s : CursorState} (hc : w.cursorAt c = ⟨source, s⟩)
    (hbusy : s ≠ .busy) (hfinished : s ≠ .finished) : (nextItem hooksOf c).exec w
      = (whileBusy c (pullFrom hooksOf source s)).exec w := by
  unfold nextItem
  rw [Run.exec_bind, Run.exec_cursorAt]
  dsimp only
  rw [hc]
  cases s with
  | busy => exact absurd rfl hbusy
  | finished => exact absurd rfl hfinished
  | _ => rfl

end Pulls

/-! ## §4. What can come of a turn. -/

/-- Whether a passage is the begin of a run, `some true`, or its end, `some false`. -/
def Passage.mark? : Passage → Option Bool
  | ran .begin (.ok _) => some true
  | ran .finish _ => some false
  | _ => none

/-- The begins and ends of runs among passages. -/
def marks (ps : List Passage) : List Bool := ps.filterMap Passage.mark?

@[simp] theorem marks_append (ps qs : List Passage) : marks (ps ++ qs) = marks ps ++ marks qs :=
  List.filterMap_append

/-- How a run is continued by an iterator: it gives an item, or it finishes the run
and gives none. -/
inductive Leg (limit : Limit) (made : Nat) : List Passage → Except Error Pulled → Phase → Prop where
  | yields (allowed : limit.allows made) :
      Leg limit made [.ran .pull (.ok true)]
        (.ok (some (.int (made + 1 : Nat), .paused (made + 1)))) .running
  | ends {last : List Passage} {ended : Except Error Bool} {result : Except Error Pulled}
      {p : Phase} (unmarked : marks last = []) (noItem : ∀ pulled, result ≠ .ok (some pulled))
      (outcome : p.inRun = !ended.isOk) :
      Leg limit made (last ++ [.ran .finish ended]) result p

/-- What comes before an iterator goes on with a run: it begins the run, or it stands
after some pulls of it. -/
inductive Opening (p : Phase) : CursorState → List Passage → Nat → Prop where
  | begins (idle : p.inRun = false) : Opening p .fresh [.ran .begin (.ok true)] 0
  | resumes {made : Nat} (running : p = .running) : Opening p (.paused made) [] made

/-- What can come of a turn: from the state of the iterator and the phase of the
generator before, to those afterwards, with the passages and the answer. -/
inductive Stint (limit : Limit) (p : Phase) : CursorState → List Passage →
    Except Error (Option Value) → CursorState → Phase → Prop where
  | rests {s : CursorState} (idle : s = .fresh ∨ s = .finished) :
      Stint limit p s [] (.ok none) .finished p
  | refused {e : Error} (busy : p.inRun) :
      Stint limit p .fresh [.refused .begin e] (.error e) .finished p
  | notBegun {e : Error} (idle : p.inRun = false) :
      Stint limit p .fresh [.ran .begin (.error e)] (.error e) .finished p
  | yields {s : CursorState} {opening : List Passage} {made : Nat} (start : Opening p s opening made)
      (allowed : limit.allows made) :
      Stint limit p s (opening ++ [.ran .pull (.ok true)]) (.ok (some (.int (made + 1 : Nat))))
        (.paused (made + 1)) .running
  | ends {s : CursorState} {opening last : List Passage} {made : Nat} {ended : Except Error Bool}
      {answer : Except Error (Option Value)} {p' : Phase} (start : Opening p s opening made)
      (unmarked : marks last = []) (noItem : ∀ v, answer ≠ .ok (some v))
      (outcome : p'.inRun = !ended.isOk) :
      Stint limit p s (opening ++ last ++ [.ran .finish ended]) answer .finished p'

section Stints

variable {hooks : Hooks} {hooksOf : GeneratorRef → Hooks} {g : GeneratorRef}
  {calm : World → Prop} {limit : Limit} {c : CursorRef} {w : World}

/-- The end of a run: the failure to finish counts more. -/
theorem leg_of_finish (hquiet : hooks.Quiet g calm) (hw : calm w)
    (hrun : (w.life g).phase.inRun) {made : Nat} {last : List Passage} (hlast : marks last = [])
    {result : Except Error Pulled} (hresult : ∀ pulled, result ≠ .ok (some pulled)) :
    ∃ result' v, (match (GeneratorCall.finish.run hooks g).exec w with
        | (.ok _, u) => (result, u)
        | (.error e, u) => (.error e, u)) = (result', v)
      ∧ ((GeneratorCall.finish.run hooks g).exec w).2 = v ∧ calm v
      ∧ Leg limit made (last ++ [GeneratorCall.finish.passage hooks g w]) result'
        (v.life g).phase := by
  rcases hexec : (GeneratorCall.finish.run hooks g).exec w with ⟨e | more, v⟩
  all_goals
    obtain ⟨hcalm, hpassage, hlife⟩ :=
      hquiet.run_admitted hw (GeneratorCall.admission_finish_iff.2 hrun) hexec
    rw [hpassage]
  · exact ⟨_, v, rfl, rfl, hcalm, .ends hlast nofun (by rw [hlife]; exact hrun)⟩
  · exact ⟨_, v, rfl, rfl, hcalm, .ends hlast hresult (by rw [hlife]; rfl)⟩

/-- **How a run is continued by an iterator**, call by call. -/
theorem leg_continueRun (hquiet : hooks.Quiet g calm) (hw : calm w)
    (hrunning : (w.life g).phase = .running) (limit : Limit) (made : Nat) :
    ∃ result v, (continueRun hooks g limit made).exec w = (result, v)
      ∧ (callAll hooks g w (continuation hooks g limit made w)).2 = v ∧ calm v
      ∧ Leg limit made (callAll hooks g w (continuation hooks g limit made w)).1 result
        (v.life g).phase := by
  rw [exec_continueRun, exec_pullStep]
  unfold continuation
  cases hallowed : limit.allows made with
  | false => exact leg_of_finish hquiet hw (by rw [hrunning]; rfl) (rfl : marks [] = []) (by simp)
  | true =>
    rw [if_pos rfl, if_pos rfl]
    rcases hpull : (pull hooks g).exec w with ⟨e | _ | _, v⟩
    all_goals
      obtain ⟨hcalm, hpassage, hlife⟩ :=
        hquiet.run_admitted (c := .pull) hw (GeneratorCall.admission_pull_iff.2 hrunning) hpull
      simp only [callAll, GeneratorCall.run, hpull, hpassage]
    · refine leg_of_finish hquiet hcalm ?_ (rfl : marks [.ran .pull (.error e)] = []) (by simp)
      rw [hlife]
      simp [Life.pass, hrunning, Phase.inRun]
    · refine leg_of_finish hquiet hcalm ?_ (rfl : marks [.ran .pull (.ok false)] = []) (by simp)
      rw [hlife]
      rfl
    · refine ⟨_, v, rfl, rfl, hcalm, ?_⟩
      have hphase : ((w.life g).pass (.ran .pull (.ok true))).phase = .running := hrunning
      rw [hlife, hphase]
      exact .yields hallowed

/-- What an iterator makes of a leg of its run. -/
theorem stint_of_leg {p : Phase} {s : CursorState} {opening ps : List Passage} {made : Nat}
    (start : Opening p s opening made) {result : Except Error Pulled} {v : World}
    (hleg : Leg limit made ps result (v.life g).phase) {x : Run Pulled}
    (hx : x.exec (w.withCursor c .busy) = (result, v)) :
    ∃ answer state, (whileBusy c x).exec w = (answer, v.withCursor c state)
      ∧ Stint limit p s (opening ++ ps) answer state (v.life g).phase := by
  rw [exec_whileBusy, hx]
  generalize hp : (v.life g).phase = p' at hleg ⊢
  cases hleg with
  | yields allowed => exact ⟨_, _, rfl, .yields start allowed⟩
  | @ends last ended _ _ unmarked noItem outcome =>
    rw [← List.append_assoc]
    rcases result with e | _ | pulled
    · exact ⟨_, _, rfl, .ends start unmarked nofun outcome⟩
    · exact ⟨_, _, rfl, .ends start unmarked nofun outcome⟩
    · exact absurd rfl (noItem pulled)

/-- An iterator stands between two turns; a run that it has begun is running. -/
def World.Poised (w : World) (g : GeneratorRef) (c : CursorRef) : Prop :=
  match (w.cursorAt c).state with
  | .fresh | .finished => True
  | .paused _ => (w.life g).phase = .running
  | _ => False

theorem withCursor_state (w : World) (c : CursorRef) :
    w.withCursor c (w.cursorAt c).state = w := by
  unfold World.withCursor World.cursorAt
  rw [Heap.set_get]

/-- What comes of a turn: it is its calls to the generator, in their order, and then
the iterator has another state. -/
def IteratorCall.ComesTo (hooksOf : GeneratorRef → Hooks) (g : GeneratorRef)
    (calm : World → Prop) (limit : Limit) (w : World) (op : IteratorCall) : Prop :=
  ∃ answer v state, (op.run hooksOf).exec w = (answer, v.withCursor op.cursor state)
    ∧ v = (callAll (hooksOf g) g (op.during w) (op.calls (hooksOf g) g w)).2 ∧ calm v
    ∧ Stint limit (w.life g).phase (w.cursorAt op.cursor).state
      (op.passages (hooksOf g) g w) answer state (v.life g).phase

theorem exec_pullFrom_fresh (w : World) : (pullFrom hooksOf (.run g limit) .fresh).exec w
    = match (GeneratorCall.begin.run (hooksOf g) g).exec w with
      | (.ok _, v) => (continueRun (hooksOf g) g limit 0).exec v
      | (.error e, v) => (.error e, v) := by
  simp only [pullFrom, GeneratorCall.run, Run.exec_bind]
  rcases (beginRun (hooksOf g) g).exec w with ⟨_ | _, _⟩ <;> rfl

/-- The first pull of an iterator begins the run, and goes on with it if it has begun. -/
theorem comesTo_next_fresh (hquiet : (hooksOf g).Quiet g calm)
    (hbusy : calm (w.withCursor c .busy)) (hc : w.cursorAt c = ⟨.run g limit, .fresh⟩) :
    (IteratorCall.next c).ComesTo hooksOf g calm limit w := by
  have hexec : ((IteratorCall.next c).run hooksOf).exec w
      = (whileBusy c (pullFrom hooksOf (.run g limit) .fresh)).exec w := exec_nextItem hc nofun nofun
  have hpull : (pullFrom hooksOf (.run g limit) .fresh).exec (w.withCursor c .busy) = _ :=
    exec_pullFrom_fresh _
  unfold IteratorCall.ComesTo IteratorCall.passages IteratorCall.calls IteratorCall.during
  simp only [IteratorCall.cursor, hc, hexec]
  cases hidle : (w.life g).phase.inRun with
  | true =>
    obtain ⟨e, -, hrefused⟩ := GeneratorCall.exec_run_misplaced (g := g)
      (w := w.withCursor c .busy) (GeneratorCall.misplaced_begin_iff.2 hidle)
    obtain ⟨hbegin, hpassage⟩ := hrefused (hooksOf g)
    rw [hbegin] at hpull ⊢
    simp only [callAll, hbegin, hpassage]
    refine ⟨.error e, w.withCursor c .busy, .finished, ?_, rfl, hbusy, .refused hidle⟩
    rw [exec_whileBusy, hpull]
  | false =>
    rcases hbegin : (GeneratorCall.begin.run (hooksOf g) g).exec (w.withCursor c .busy)
      with ⟨e | started, u⟩
    all_goals
      obtain ⟨hcalm, hpassage, hlife⟩ :=
        hquiet.run_admitted hbusy (GeneratorCall.admission_begin_iff.2 hidle) hbegin
      rw [hbegin] at hpull
    · simp only [callAll, hbegin, hpassage]
      refine ⟨.error e, u, .finished, ?_, rfl, hcalm, ?_⟩
      · rw [exec_whileBusy, hpull]
      · rw [hlife]
        exact .notBegun hidle
    · obtain rfl := GeneratorCall.answer_eq_true (by decide) hbegin
      obtain ⟨result, v, hgo, hv, hv', hleg⟩ :=
        leg_continueRun hquiet hcalm (by rw [hlife]; rfl) limit 0
      obtain ⟨answer, state, hturn, hstint⟩ :=
        stint_of_leg (.begins hidle) hleg (hpull.trans hgo)
      simp only [callAll, hbegin, hpassage, hturn]
      exact ⟨answer, v, state, rfl, hv.symm, hv', hstint⟩

/-- A later pull goes on with the run. -/
theorem comesTo_next_paused (hquiet : (hooksOf g).Quiet g calm)
    (hbusy : calm (w.withCursor c .busy)) {made : Nat}
    (hc : w.cursorAt c = ⟨.run g limit, .paused made⟩) (hrunning : (w.life g).phase = .running) :
    (IteratorCall.next c).ComesTo hooksOf g calm limit w := by
  have hexec : ((IteratorCall.next c).run hooksOf).exec w
      = (whileBusy c (pullFrom hooksOf (.run g limit) (.paused made))).exec w :=
    exec_nextItem hc nofun nofun
  have hpull : pullFrom hooksOf (.run g limit) (.paused made)
      = continueRun (hooksOf g) g limit made := rfl
  rw [hpull] at hexec
  unfold IteratorCall.ComesTo IteratorCall.passages IteratorCall.calls IteratorCall.during
  simp only [IteratorCall.cursor, hc, hexec]
  obtain ⟨result, v, hgo, hv, hv', hleg⟩ := leg_continueRun hquiet hbusy hrunning limit made
  obtain ⟨answer, state, hturn, hstint⟩ := stint_of_leg (.resumes hrunning) hleg hgo
  rw [hturn]
  exact ⟨answer, v, state, rfl, hv.symm, hv', hstint⟩

/-- Closing an iterator in the middle of a run finishes the run. -/
theorem comesTo_close_paused (hquiet : (hooksOf g).Quiet g calm)
    (hbusy : calm (w.withCursor c .busy)) {made : Nat}
    (hc : w.cursorAt c = ⟨.run g limit, .paused made⟩) (hrunning : (w.life g).phase = .running) :
    (IteratorCall.close c).ComesTo hooksOf g calm limit w := by
  have hexec {answer : Except Error Bool} {v : World}
      (hfinish : (GeneratorCall.finish.run (hooksOf g) g).exec (w.withCursor c .busy) = (answer, v)) :
      ((IteratorCall.close c).run hooksOf).exec w
        = (answer.map fun _ => none, v.withCursor c .finished) := by
    simp only [GeneratorCall.run, Run.exec_bind] at hfinish
    simp only [IteratorCall.run, closeCursor, Run.exec_bind, Run.exec_cursorAt, hc, Run.exec_discard,
      exec_whileBusy]
    rcases hend : (endRun (hooksOf g) g).exec (w.withCursor c .busy) with ⟨_ | _, _⟩ <;>
      · rw [hend] at hfinish
        cases hfinish
        rfl
  unfold IteratorCall.ComesTo IteratorCall.passages IteratorCall.calls IteratorCall.during
  simp only [IteratorCall.cursor, hc, callAll]
  rcases hfinish : (GeneratorCall.finish.run (hooksOf g) g).exec (w.withCursor c .busy)
    with ⟨e | more, v⟩
  all_goals
    obtain ⟨hcalm, hpassage, hlife⟩ := hquiet.run_admitted hbusy
      (GeneratorCall.admission_finish_iff.2 (by rw [World.life_withCursor, hrunning]; rfl)) hfinish
    rw [hpassage, hexec hfinish]
    refine ⟨_, v, .finished, rfl, rfl, hcalm, ?_⟩
    rw [hlife, World.life_withCursor]
  · refine .ends (.resumes hrunning) (rfl : marks [] = []) (by simp [Except.map]) ?_
    simp [Life.pass, hrunning]
    rfl
  · exact .ends (.resumes hrunning) (rfl : marks [] = []) (by simp [Except.map]) rfl

/-- A turn without a run. -/
theorem comesTo_rests {op : IteratorCall} (hbusy : calm (w.withCursor op.cursor .busy))
    {s : CursorState} (hs : s = .fresh ∨ s = .finished)
    (hc : w.cursorAt op.cursor = ⟨.run g limit, s⟩)
    (hexec : (op.run hooksOf).exec w = (.ok none, w.withCursor op.cursor .finished))
    (hcalls : op.calls (hooksOf g) g w = []) : op.ComesTo hooksOf g calm limit w := by
  unfold IteratorCall.ComesTo IteratorCall.passages
  rw [hcalls, hc, hexec]
  refine ⟨_, w.withCursor op.cursor .busy, .finished, ?_, rfl, hbusy, .rests hs⟩
  rw [World.withCursor_withCursor (congrArg Cursor.source hc)]

/-- An iterator that is closed before it is first pulled, or after its end, does
nothing, whatever the hooks are. -/
theorem exec_closeCursor_idle {s : CursorState} (hs : s = .fresh ∨ s = .finished)
    (hc : w.cursorAt c = ⟨.run g limit, s⟩) (hooksOf : GeneratorRef → Hooks) :
    (closeCursor hooksOf c).exec w = (.ok (), w.withCursor c .finished) := by
  unfold closeCursor
  rw [Run.exec_bind, Run.exec_cursorAt, hc]
  obtain rfl | rfl := hs <;> rfl

theorem comesTo_close_idle (hbusy : calm (w.withCursor c .busy)) {s : CursorState}
    (hs : s = .fresh ∨ s = .finished) (hc : w.cursorAt c = ⟨.run g limit, s⟩) :
    (IteratorCall.close c).ComesTo hooksOf g calm limit w := by
  refine comesTo_rests hbusy hs hc ?_ ?_
  · show Run.exec (closeCursor hooksOf c >>= fun _ => pure none) w = _
    rw [Run.exec_bind, exec_closeCursor_idle hs hc]
    rfl
  · obtain rfl | rfl := hs <;> simp only [IteratorCall.calls, IteratorCall.cursor, hc]

theorem comesTo_next_finished (hbusy : calm (w.withCursor c .busy))
    (hc : w.cursorAt c = ⟨.run g limit, .finished⟩) :
    (IteratorCall.next c).ComesTo hooksOf g calm limit w := by
  refine comesTo_rests hbusy (.inr rfl) hc ?_ (by
    simp only [IteratorCall.calls, IteratorCall.cursor, hc])
  have hself := withCursor_state w c
  rw [hc] at hself
  show (nextItem hooksOf c).exec w = (.ok none, w.withCursor c .finished)
  unfold nextItem
  rw [hself, Run.exec_bind, Run.exec_cursorAt, hc]
  rfl

/-- The first pull of an iterator fails while a run is under way, and does nothing
else, whatever the hooks are. -/
theorem exec_nextItem_refused (hc : w.cursorAt c = ⟨.run g limit, .fresh⟩)
    (hbusy : (w.life g).phase.inRun) : ∃ e, e.kind = .generatorState ∧
      ∀ hooksOf, (nextItem hooksOf c).exec w = (.error e, w.withCursor c .finished) := by
  obtain ⟨e, hkind, hrefused⟩ := GeneratorCall.exec_run_misplaced (g := g)
    (w := w.withCursor c .busy) (GeneratorCall.misplaced_begin_iff.2 hbusy)
  refine ⟨e, hkind, fun hooksOf => ?_⟩
  rw [exec_nextItem hc nofun nofun, exec_whileBusy, exec_pullFrom_fresh, (hrefused _).1]
  dsimp only
  rw [World.withCursor_withCursor (congrArg Cursor.source hc)]

/-- **A turn of an iterator is its calls to the generator, and comes to a stint.** -/
theorem IteratorCall.comesTo (hquiet : (hooksOf g).Quiet g calm)
    (hspares : (hooksOf g).SparesIterators g calm) (hw : calm w) {op : IteratorCall}
    (hc : w.Iterates g limit op.cursor) (hpoised : w.Poised g op.cursor) :
    op.ComesTo hooksOf g calm limit w := by
  have hbusy : calm (w.withCursor op.cursor .busy) := hspares.withCursor _ hw hc
  have hcursor : w.cursorAt op.cursor = ⟨.run g limit, (w.cursorAt op.cursor).state⟩ := by
    rw [← hc]
  unfold World.Poised at hpoised
  cases hstate : (w.cursorAt op.cursor).state with
  | nodesLeft ids | edgesLeft graph ids | busy =>
    rw [hstate] at hpoised
    exact hpoised.elim
  | fresh =>
    rw [hstate] at hcursor
    cases op with
    | next c => exact comesTo_next_fresh hquiet hbusy hcursor
    | close c => exact comesTo_close_idle hbusy (.inl rfl) hcursor
  | finished =>
    rw [hstate] at hcursor
    cases op with
    | next c => exact comesTo_next_finished hbusy hcursor
    | close c => exact comesTo_close_idle hbusy (.inr rfl) hcursor
  | paused made =>
    rw [hstate] at hcursor hpoised
    cases op with
    | next c => exact comesTo_next_paused hquiet hbusy hcursor hpoised
    | close c => exact comesTo_close_paused hquiet hbusy hcursor hpoised

end Stints
end EvolvingGraph
