/-
  EvolvingGraph.Proofs.Generation.Interleaving
  ────────────────────────────────────────────
  **ITERATORS OVER ONE GENERATOR DO NOT OVERLAP THEIR RUNS.**

  Any number of iterators go through the steps of one generator, and are pulled
  and closed in whatever order their owners like.  The generator is in one run at
  most, and the iterator that has begun it is the one that ends it.

  What is said of a single iterator (`Standing`) follows from its own turns.  That
  no other iterator ends its run, or begins another one meanwhile, is because a run
  that is held (`HoldsRun`) keeps the generator from being begun.

  Main statements:
    * `Standing.after` — what is known of an iterator after one more turn;
    * `Interleaved.after_turn` — what is known of all of them;
    * `iterators_take_turns` — what iterators give, and when runs begin and end.
-/
import Mathlib.Data.List.Chain
import EvolvingGraph.Proofs.Generation.Turns

namespace EvolvingGraph

/-! ## §1. Turns. -/

/-- A call to an iterator, what came of its calls to the generator, and the answer. -/
structure Turn where
  op : IteratorCall
  passages : List Passage
  answer : Except Error (Option Value)

/-- The item that an iterator gave. -/
def Turn.item? (t : Turn) : Option Value :=
  match t.answer with
  | .ok item => item
  | .error _ => none

/-- The turns of one iterator. -/
def turnsOf (c : CursorRef) (turns : List Turn) : List Turn :=
  turns.filter fun t => t.op.cursor = c

/-- The items that were given. -/
def itemsOf (turns : List Turn) : List Value := turns.filterMap Turn.item?

/-- What came of the calls to the generator. -/
def passagesOf (turns : List Turn) : List Passage := turns.flatMap Turn.passages

/-- The numbers from 1 on. -/
def counted (n : Nat) : List Value := (List.range n).map fun i => .int (i + 1 : Nat)

/-- Turns of iterators over a generator, one after the other.  In between anything
may happen that leaves the generator and its iterators to their callers. -/
inductive Interleaving (hooksOf : GeneratorRef → Hooks) (g : GeneratorRef)
    (calm : World → Prop) (w : World) : List Turn → World → Prop where
  | start : Interleaving hooksOf g calm w [] w
  | operated {turns : List Turn} {v : World} (before : Interleaving hooksOf g calm w turns v)
      {limit : Limit} (op : IteratorCall) (own : v.Iterates g limit op.cursor) :
      Interleaving hooksOf g calm w
        (turns ++ [⟨op, op.passages (hooksOf g) g v, ((op.run hooksOf).exec v).1⟩])
        ((op.run hooksOf).exec v).2
  | elsewhere {turns : List Turn} {v v' : World}
      (before : Interleaving hooksOf g calm w turns v) (still : calm v')
      (same : v'.life g = v.life g) (spared : v.SparesIterators g v') :
      Interleaving hooksOf g calm w turns v'

section Turns

variable {c : CursorRef} {turns : List Turn} {t : Turn}

theorem turnsOf_concat_self (turns : List Turn) (t : Turn) :
    turnsOf t.op.cursor (turns ++ [t]) = turnsOf t.op.cursor turns ++ [t] := by
  simp [turnsOf]

theorem turnsOf_concat_of_ne (turns : List Turn) (h : t.op.cursor ≠ c) :
    turnsOf c (turns ++ [t]) = turnsOf c turns := by
  simp [turnsOf, h]

theorem itemsOf_concat (turns : List Turn) (t : Turn) :
    itemsOf (turns ++ [t]) = itemsOf turns ++ t.item?.toList := by
  unfold itemsOf
  rw [List.filterMap_append]
  cases h : t.item? <;> simp [h]

@[simp] theorem passagesOf_concat (turns : List Turn) (t : Turn) :
    passagesOf (turns ++ [t]) = passagesOf turns ++ t.passages := by
  simp [passagesOf]

theorem counted_succ (n : Nat) : counted (n + 1) = counted n ++ [.int (n + 1 : Nat)] := by
  simp [counted, List.range_succ]

end Turns

/-! ## §2. Alternation. -/

/-- Begins and ends alternate, from a begin on; the last one is a begin or not. -/
def Alternates (isOpen : Bool) (ms : List Bool) : Prop :=
  List.IsChain (· ≠ ·) (false :: ms) ∧ (false :: ms).getLast? = some isOpen

theorem Alternates.concat {b : Bool} {ms : List Bool} (h : Alternates (!b) ms) :
    Alternates b (ms ++ [b]) := by
  obtain ⟨hchain, hlast⟩ := h
  unfold Alternates
  rw [← List.cons_append]
  refine ⟨List.isChain_append.2 ⟨hchain, .singleton _, ?_⟩, List.getLast?_concat⟩
  intro x hx y hy
  rw [hlast, Option.mem_some_iff] at hx
  obtain rfl : b = y := by simpa using hy
  rw [← hx]
  exact Bool.not_ne_self b

/-! ## §3. What is known of one iterator. -/

/-- What is known of an iterator from its turns. -/
inductive Standing (limit : Limit) (ts : List Turn) : CursorState → Prop where
  | fresh (none : ts = []) : Standing limit ts .fresh
  | paused {made : Nat} (items : itemsOf ts = counted made) (below : ∀ j < made, limit.allows j)
      (yielding : ∀ t ∈ ts, t.item? ≠ none) (begun : marks (passagesOf ts) = [true]) :
      Standing limit ts (.paused made)
  | finished {made : Nat} (items : itemsOf ts = counted made) (below : ∀ j < made, limit.allows j)
      (ended : marks (passagesOf ts) = []
        ∨ marks (passagesOf ts) = [true, false] ∧ ∃ t ∈ ts, t.item? = none) :
      Standing limit ts .finished

/-- An iterator has begun a run and has not ended it: it has not tried, or it has failed. -/
def HoldsRun (ts : List Turn) : Prop :=
  true ∈ marks (passagesOf ts) ∧ ∀ more, .ran .finish (.ok more) ∉ passagesOf ts

theorem HoldsRun.of_unmarked {ts : List Turn} {t : Turn} (hmarks : marks t.passages = [])
    (h : HoldsRun (ts ++ [t])) : HoldsRun ts := by
  obtain ⟨hbegun, hnotEnded⟩ := h
  rw [passagesOf_concat] at hbegun hnotEnded
  rw [marks_append, hmarks, List.append_nil] at hbegun
  exact ⟨hbegun, fun more hmore => hnotEnded more (List.mem_append_left _ hmore)⟩

theorem mem_marks_of_finish {ps : List Passage} {result : Except Error Bool}
    (h : .ran .finish result ∈ ps) : false ∈ marks ps :=
  List.mem_filterMap.2 ⟨_, h, rfl⟩

namespace Standing

variable {limit : Limit} {ts : List Turn} {s s' : CursorState} {p p' : Phase} {op : IteratorCall}
  {ps : List Passage} {answer : Except Error (Option Value)}

/-- An iterator that stands in the middle of a run holds it. -/
theorem holdsRun {made : Nat} (h : Standing limit ts (.paused made)) : HoldsRun ts := by
  cases h with
  | paused items below yielding begun =>
    refine ⟨by rw [begun]; exact List.mem_singleton_self _, fun more hmore => ?_⟩
    have hfalse := mem_marks_of_finish hmore
    rw [begun] at hfalse
    simp at hfalse

/-- An iterator that has had no turn and gets none of its own run. -/
theorem of_nothing {t : Turn} (hitem : t.item? = none) (hmarks : marks t.passages = []) :
    Standing limit ([] ++ [t]) .finished := by
  have hitems : itemsOf ([] ++ [t]) = counted 0 := by
    rw [itemsOf_concat, hitem]
    rfl
  refine .finished hitems (fun _ h => absurd h (Nat.not_lt_zero _)) (.inl ?_)
  rw [passagesOf_concat, marks_append, hmarks]
  rfl

/-- **What is known of an iterator after one more turn.** -/
theorem after (h : Standing limit ts s) (hstint : Stint limit p s ps answer s' p') :
    Standing limit (ts ++ [⟨op, ps, answer⟩]) s' := by
  cases hstint with
  | rests idle =>
    cases h with
    | fresh none =>
      subst none
      exact of_nothing rfl rfl
    | paused items below yielding begun => simp at idle
    | finished items below ended =>
      refine .finished (Eq.trans ?_ items) below ?_
      · rw [itemsOf_concat]
        exact List.append_nil _
      · rw [passagesOf_concat, marks_append]
        show marks (passagesOf ts) ++ [] = [] ∨ marks (passagesOf ts) ++ [] = _ ∧ _
        rw [List.append_nil]
        exact ended.imp_right fun ⟨hmarks, t, ht, hitem⟩ =>
          ⟨hmarks, t, List.mem_append_left _ ht, hitem⟩
  | refused busy =>
    cases h with
    | fresh none =>
      subst none
      exact of_nothing rfl rfl
  | notBegun idle =>
    cases h with
    | fresh none =>
      subst none
      exact of_nothing rfl rfl
  | @yields _ opening made start allowed =>
    cases start with
    | begins idle =>
      cases h with
      | fresh none =>
        subst none
        refine .paused rfl (fun j hj => ?_) (fun t ht => ?_) rfl
        · rw [Nat.lt_one_iff.1 hj]
          exact allowed
        · rw [List.mem_singleton.1 ht]
          nofun
    | resumes running =>
      cases h with
      | paused items below yielding begun =>
        refine .paused ?_ (fun j hj => ?_) (fun t ht => ?_) ?_
        · rw [itemsOf_concat, items, counted_succ]
          rfl
        · obtain hj | rfl := Nat.lt_succ_iff_lt_or_eq.1 hj
          · exact below j hj
          · exact allowed
        · obtain ht | ht := List.mem_append.1 ht
          · exact yielding t ht
          · rw [List.mem_singleton.1 ht]
            nofun
        · rw [passagesOf_concat, marks_append, begun]
          rfl
  | @ends _ opening last made ended _ _ start unmarked noItem outcome =>
    have hitem : Turn.item? ⟨op, opening ++ last ++ [.ran .finish ended], answer⟩ = none := by
      rcases answer with e | _ | v
      · rfl
      · rfl
      · exact absurd rfl (noItem v)
    -- a run that is ended in this turn was begun by the same iterator
    have hbegun : itemsOf ts = counted made ∧ (∀ j < made, limit.allows j)
        ∧ marks (passagesOf ts) ++ marks opening = [true] := by
      cases start with
      | begins idle =>
        cases h with
        | fresh none =>
          subst none
          exact ⟨rfl, fun _ h => absurd h (Nat.not_lt_zero _), rfl⟩
      | resumes running =>
        cases h with
        | paused items below yielding begun =>
          exact ⟨items, below, by rw [begun]; rfl⟩
    obtain ⟨items, below, begun⟩ := hbegun
    refine .finished (Eq.trans ?_ items) below (.inr ⟨?_, _, List.mem_append_right _
      (List.mem_singleton_self _), hitem⟩)
    · rw [itemsOf_concat, hitem]
      exact List.append_nil _
    · rw [passagesOf_concat]
      simp only [marks_append, unmarked, List.append_nil]
      rw [← List.append_assoc, begun]
      rfl

end Standing

/-! ## §4. What is known of all iterators. -/

theorem Stint.running_of_paused {limit : Limit} {p p' : Phase} {s : CursorState}
    {ps : List Passage} {answer : Except Error (Option Value)} {made : Nat}
    (h : Stint limit p s ps answer (.paused made) p') : p' = .running := by
  cases h with
  | yields start allowed => rfl

section Interleaved

variable {hooksOf : GeneratorRef → Hooks} {g : GeneratorRef} {calm : World → Prop}
  {w w' : World} {turns : List Turn}

/-- An iterator stands in the middle of a run. -/
def World.HasPaused (w : World) (g : GeneratorRef) : Prop :=
  ∃ limit c made, w.cursorAt c = ⟨.run g limit, .paused made⟩

/-- What is known of the iterators over a generator from their turns. -/
structure Interleaved (g : GeneratorRef) (turns : List Turn) (w : World) : Prop where
  known : ∀ t ∈ turns, ∃ limit, w.Iterates g limit t.op.cursor
  standing : ∀ {limit c}, w.Iterates g limit c →
    Standing limit (turnsOf c turns) (w.cursorAt c).state
  running : ∀ {limit c made}, w.cursorAt c = ⟨.run g limit, .paused made⟩ →
    (w.life g).phase = .running
  holding : ∀ {c}, HoldsRun (turnsOf c turns) → (w.life g).phase.inRun
  exclusive : ∀ {c c'}, HoldsRun (turnsOf c turns) → HoldsRun (turnsOf c' turns) → c = c'
  /-- The last mark is a begin just if an iterator stands in the middle of a run. -/
  alternating : ∃ isOpen, Alternates isOpen (marks (passagesOf turns))
    ∧ (isOpen = true ↔ w.HasPaused g)

/-- Iterators that have not been pulled, or are at their end. -/
def World.AtRest (w : World) (g : GeneratorRef) : Prop :=
  (w.life g).phase.inRun = false ∧ ∀ {limit c}, w.Iterates g limit c →
    (w.cursorAt c).state = .fresh ∨ (w.cursorAt c).state = .finished

theorem not_holdsRun_nil : ¬ HoldsRun [] := fun h => by simpa [passagesOf, marks] using h.1

theorem Interleaved.nil (h : w.AtRest g) : Interleaved g [] w := by
  refine ⟨nofun, fun {limit c} hc => ?_, fun {limit c made} hc => ?_,
    fun h => absurd h not_holdsRun_nil, fun h => absurd h not_holdsRun_nil,
    false, ⟨.singleton _, rfl⟩, nofun, ?_⟩
  · obtain hstate | hstate := h.2 hc <;> rw [hstate]
    · exact .fresh rfl
    · exact .finished (rfl : _ = counted 0) (fun _ h => absurd h (Nat.not_lt_zero _)) (.inl rfl)
  · obtain hstate | hstate := h.2 (congrArg Cursor.source hc) <;> rw [hc] at hstate <;> cases hstate
  · rintro ⟨limit, c, made, hc⟩
    obtain hstate | hstate := h.2 (congrArg Cursor.source hc) <;> rw [hc] at hstate <;> cases hstate

namespace Interleaved

theorem holdsRun_of_paused (h : Interleaved g turns w) {limit : Limit} {c : CursorRef} {made : Nat}
    (hc : w.cursorAt c = ⟨.run g limit, .paused made⟩) : HoldsRun (turnsOf c turns) := by
  have hstanding := h.standing (congrArg Cursor.source hc)
  rw [hc] at hstanding
  exact hstanding.holdsRun

theorem poised (h : Interleaved g turns w) {limit : Limit} {c : CursorRef}
    (hc : w.Iterates g limit c) : w.Poised g c := by
  have hstanding := h.standing hc
  have hcursor : w.cursorAt c = ⟨.run g limit, (w.cursorAt c).state⟩ := by rw [← hc]
  unfold World.Poised
  generalize (w.cursorAt c).state = s at hstanding hcursor
  cases hstanding with
  | fresh => trivial
  | paused => exact h.running hcursor
  | finished => trivial

/-- What happens elsewhere leaves all that as it is. -/
theorem elsewhere (h : Interleaved g turns w) (same : w'.life g = w.life g)
    (spared : w.SparesIterators g w') : Interleaved g turns w' := by
  have hpaused {limit : Limit} {c : CursorRef} {made : Nat} :
      w'.cursorAt c = ⟨.run g limit, .paused made⟩ ↔ w.cursorAt c = ⟨.run g limit, .paused made⟩ := by
    constructor
    · intro hc
      by_cases hbefore : ∃ limit', w.Iterates g limit' c
      · obtain ⟨limit', hbefore⟩ := hbefore
        rw [← spared.kept hbefore]
        exact hc
      · have hfresh := spared.fresh (congrArg Cursor.source hc)
          fun limit' hlimit => hbefore ⟨limit', hlimit⟩
        rw [hc] at hfresh
        cases hfresh
    · intro hc
      rw [spared.kept (congrArg Cursor.source hc)]
      exact hc
  refine ⟨fun t ht => ?_, fun {limit c} hc => ?_, fun hc => ?_, fun hc => ?_, h.exclusive, ?_⟩
  · obtain ⟨limit, hlimit⟩ := h.known t ht
    exact ⟨limit, (congrArg Cursor.source (spared.kept hlimit)).trans hlimit⟩
  · by_cases hbefore : ∃ limit', w.Iterates g limit' c
    · obtain ⟨limit', hbefore⟩ := hbefore
      have hkept := spared.kept hbefore
      rw [hkept]
      exact h.standing ((congrArg Cursor.source hkept).symm.trans hc)
    · -- a new iterator has had no turn
      rw [spared.fresh hc fun limit' hlimit => hbefore ⟨limit', hlimit⟩]
      refine .fresh (List.filter_eq_nil_iff.2 fun t ht hcursor => hbefore ?_)
      rw [← of_decide_eq_true hcursor]
      exact h.known t ht
  · rw [same]
    exact h.running (hpaused.1 hc)
  · rw [same]
    exact h.holding hc
  · have hsame : w'.HasPaused g ↔ w.HasPaused g := by
      simp only [World.HasPaused, hpaused]
    rw [hsame]
    exact h.alternating

section AfterTurn

variable {u : World} {limit : Limit} {op : IteratorCall} {ps : List Passage}
  {answer : Except Error (Option Value)} {s s' : CursorState} {p' : Phase}

/-- While another iterator holds its run, a turn leaves the run alone. -/
theorem unmarked_of_holdsRun (h : Interleaved g turns w)
    (hc : w.cursorAt op.cursor = ⟨.run g limit, s⟩)
    (hstint : Stint limit (w.life g).phase s ps answer s' p') {c : CursorRef}
    (hne : op.cursor ≠ c) (holds : HoldsRun (turnsOf c turns)) :
    p' = (w.life g).phase ∧ marks ps = [] := by
  have hnone {opening : List Passage} {made : Nat} :
      ¬ Opening (w.life g).phase s opening made := by
    intro start
    cases start with
    | begins idle =>
      rw [h.holding holds] at idle
      cases idle
    | resumes running => exact hne (h.exclusive (h.holdsRun_of_paused hc) holds)
  cases hstint with
  | rests idle => exact ⟨rfl, rfl⟩
  | refused busy => exact ⟨rfl, rfl⟩
  | notBegun idle => exact ⟨rfl, rfl⟩
  | yields start allowed => exact absurd start hnone
  | ends start unmarked noItem outcome => exact absurd start hnone

/-- An iterator that holds its run after a turn has the generator in a run. -/
theorem inRun_of_holdsRun (h : Interleaved g turns w)
    (hstint : Stint limit (w.life g).phase s ps answer s' p')
    (holds : HoldsRun (turnsOf op.cursor turns ++ [⟨op, ps, answer⟩])) : p'.inRun := by
  have hidle (hp : p' = (w.life g).phase) (hmarks : marks ps = []) : p'.inRun := by
    rw [hp]
    exact h.holding (holds.of_unmarked hmarks)
  cases hstint with
  | rests idle => exact hidle rfl rfl
  | refused busy => exact hidle rfl rfl
  | notBegun idle => exact hidle rfl rfl
  | yields start allowed => rfl
  | @ends _ opening last made ended _ _ start unmarked noItem outcome =>
    rcases ended with e | more
    · exact outcome
    · refine absurd ?_ (holds.2 more)
      simp

/-- While an iterator begins its run or goes on with it, no other stands in one. -/
theorem not_paused_of_opening (h : Interleaved g turns w)
    (hc : w.cursorAt op.cursor = ⟨.run g limit, s⟩) {opening : List Passage} {made : Nat}
    (start : Opening (w.life g).phase s opening made) {c : CursorRef} (hne : op.cursor ≠ c)
    {limit' : Limit} {made' : Nat} : w.cursorAt c ≠ ⟨.run g limit', .paused made'⟩ := by
  intro hc'
  cases start with
  | begins idle =>
    rw [h.running hc'] at idle
    cases idle
  | resumes running =>
    exact hne (h.exclusive (h.holdsRun_of_paused hc) (h.holdsRun_of_paused hc'))

/-- Begins and ends alternate also after one more turn. -/
theorem alternating_after (h : Interleaved g turns w)
    (hc : w.cursorAt op.cursor = ⟨.run g limit, s⟩)
    (hstint : Stint limit (w.life g).phase s ps answer s' p')
    (hown : u.cursorAt op.cursor = ⟨.run g limit, s'⟩)
    (hothers : ∀ {c}, op.cursor ≠ c → u.cursorAt c = w.cursorAt c) :
    ∃ isOpen, Alternates isOpen (marks (passagesOf turns ++ ps))
      ∧ (isOpen = true ↔ u.HasPaused g) := by
  obtain ⟨isOpen, halternates, hpaused⟩ := h.alternating
  rw [marks_append]
  -- the iterator is at its end, and did not stand in a run before
  have hidle (hmarks : marks ps = []) (hs : ∀ made, s ≠ .paused made) (hs' : s' = .finished) :
      ∃ isOpen, Alternates isOpen (marks (passagesOf turns) ++ marks ps)
        ∧ (isOpen = true ↔ u.HasPaused g) := by
    refine ⟨isOpen, by rw [hmarks, List.append_nil]; exact halternates, hpaused.trans ?_⟩
    constructor
    · rintro ⟨limit', c, made, hc'⟩
      have hne : op.cursor ≠ c := by
        rintro rfl
        rw [hc] at hc'
        cases hc'
        exact hs made rfl
      exact ⟨limit', c, made, (hothers hne).trans hc'⟩
    · rintro ⟨limit', c, made, hc'⟩
      have hne : op.cursor ≠ c := by
        rintro rfl
        rw [hown, hs'] at hc'
        cases hc'
      exact ⟨limit', c, made, (hothers hne).symm.trans hc'⟩
  -- what the last mark was, if the iterator begins its run or goes on with it
  have hopen {opening : List Passage} {made : Nat}
      (start : Opening (w.life g).phase s opening made) : Alternates true
        (marks (passagesOf turns) ++ marks opening) := by
    cases start with
    | begins idle =>
      cases isOpen with
      | false => exact Alternates.concat (b := true) halternates
      | true =>
        obtain ⟨limit', c, made, hc'⟩ := hpaused.1 rfl
        rw [h.running hc'] at idle
        cases idle
    | resumes running =>
      rw [hpaused.2 ⟨_, _, _, hc⟩] at halternates
      rw [show marks [] = [] from rfl, List.append_nil]
      exact halternates
  cases hstint with
  | rests idle => exact hidle rfl (by obtain rfl | rfl := idle <;> nofun) rfl
  | refused busy => exact hidle rfl nofun rfl
  | notBegun idle => exact hidle rfl nofun rfl
  | yields start allowed =>
    refine ⟨true, ?_, fun _ => ⟨_, _, _, hown⟩, fun _ => rfl⟩
    rw [marks_append, show marks [.ran .pull (.ok true)] = [] from rfl, List.append_nil]
    exact hopen start
  | @ends _ opening last made ended _ _ start unmarked noItem outcome =>
    refine ⟨false, ?_, nofun, ?_⟩
    · rw [marks_append, marks_append, unmarked, List.append_nil, ← List.append_assoc]
      exact Alternates.concat (b := false) (hopen start)
    · rintro ⟨limit', c, made', hc'⟩
      by_cases hne : op.cursor = c
      · rw [← hne, hown] at hc'
        cases hc'
      · exact absurd ((hothers hne).symm.trans hc') (h.not_paused_of_opening hc start hne)

/-- **What is known of all iterators after one more turn.** -/
theorem after_turn (h : Interleaved g turns w) (hc : w.cursorAt op.cursor = ⟨.run g limit, s⟩)
    (hstint : Stint limit (w.life g).phase s ps answer s' (u.life g).phase)
    (hown : u.cursorAt op.cursor = ⟨.run g limit, s'⟩)
    (hothers : ∀ {c}, op.cursor ≠ c → u.cursorAt c = w.cursorAt c) :
    Interleaved g (turns ++ [⟨op, ps, answer⟩]) u := by
  have hself : turnsOf op.cursor (turns ++ [⟨op, ps, answer⟩])
      = turnsOf op.cursor turns ++ [⟨op, ps, answer⟩] :=
    turnsOf_concat_self turns ⟨op, ps, answer⟩
  have hother {c : CursorRef} (hne : op.cursor ≠ c) :
      turnsOf c (turns ++ [⟨op, ps, answer⟩]) = turnsOf c turns := turnsOf_concat_of_ne turns hne
  have hiterates {limit' : Limit} {c : CursorRef} (hne : op.cursor ≠ c) :
      u.Iterates g limit' c ↔ w.Iterates g limit' c := by
    unfold World.Iterates
    rw [hothers hne]
  refine ⟨fun t ht => ?_, fun {limit' c} hlimit => ?_, fun {limit' c made} hpaused => ?_,
    fun {c} holds => ?_, fun {c c'} holds holds' => ?_, ?_⟩
  · by_cases hne : op.cursor = t.op.cursor
    · rw [← hne]
      exact ⟨limit, congrArg Cursor.source hown⟩
    · obtain ht | ht := List.mem_append.1 ht
      · obtain ⟨limit', hlimit⟩ := h.known t ht
        exact ⟨limit', (hiterates hne).2 hlimit⟩
      · exact absurd (by rw [List.mem_singleton.1 ht]) hne
  · by_cases hne : op.cursor = c
    · subst hne
      obtain rfl : limit = limit' := by
        unfold World.Iterates at hlimit
        rw [hown] at hlimit
        cases hlimit
        rfl
      have hstanding := h.standing (congrArg Cursor.source hc)
      rw [hc] at hstanding
      rw [hself, hown]
      exact hstanding.after hstint
    · rw [hother hne, hothers hne]
      exact h.standing ((hiterates hne).1 hlimit)
  · by_cases hne : op.cursor = c
    · rw [← hne, hown] at hpaused
      cases hpaused
      exact hstint.running_of_paused
    · rw [hothers hne] at hpaused
      rw [(h.unmarked_of_holdsRun hc hstint hne (h.holdsRun_of_paused hpaused)).1]
      exact h.running hpaused
  · by_cases hne : op.cursor = c
    · subst hne
      rw [hself] at holds
      exact h.inRun_of_holdsRun hstint holds
    · rw [hother hne] at holds
      rw [(h.unmarked_of_holdsRun hc hstint hne holds).1]
      exact h.holding holds
  · -- an iterator that another one holds its run beside has not begun one in this turn
    have hown' {c : CursorRef} (hne : op.cursor ≠ c) (holds : HoldsRun (turnsOf c turns))
        (hself' : HoldsRun (turnsOf op.cursor (turns ++ [⟨op, ps, answer⟩]))) : op.cursor = c := by
      rw [hself] at hself'
      exact h.exclusive
        (hself'.of_unmarked (h.unmarked_of_holdsRun hc hstint hne holds).2) holds
    by_cases hne : op.cursor = c
    · by_cases hne' : op.cursor = c'
      · exact hne.symm.trans hne'
      · subst hne
        rw [hother hne'] at holds'
        exact hown' hne' holds' holds
    · rw [hother hne] at holds
      by_cases hne' : op.cursor = c'
      · subst hne'
        exact (hown' hne holds holds').symm
      · rw [hother hne'] at holds'
        exact h.exclusive holds holds'
  · rw [passagesOf_concat]
    exact h.alternating_after hc hstint hown hothers

end AfterTurn

end Interleaved

/-! ## §5. Interleaved turns. -/

/-- Make calls to iterators, one after the other: the turns, and the world afterwards. -/
def takeTurns (hooksOf : GeneratorRef → Hooks) (g : GeneratorRef) (w : World) :
    List IteratorCall → List Turn × World
  | [] => ([], w)
  | op :: ops =>
    let rest := takeTurns hooksOf g ((op.run hooksOf).exec w).2 ops
    (⟨op, op.passages (hooksOf g) g w, ((op.run hooksOf).exec w).1⟩ :: rest.1, rest.2)

theorem takeTurns_append (ops ops' : List IteratorCall) : takeTurns hooksOf g w (ops ++ ops')
    = ((takeTurns hooksOf g w ops).1 ++ (takeTurns hooksOf g (takeTurns hooksOf g w ops).2 ops').1,
      (takeTurns hooksOf g (takeTurns hooksOf g w ops).2 ops').2) := by
  induction ops generalizing w with
  | nil => rfl
  | cons op ops ih =>
    simp only [List.cons_append, takeTurns]
    rw [ih]

/-- One more turn of an iterator. -/
theorem Interleaved.step (h : Interleaved g turns w) (hquiet : (hooksOf g).Quiet g calm)
    (hspares : (hooksOf g).SparesIterators g calm) (hw : calm w) {limit : Limit}
    {op : IteratorCall} (own : w.Iterates g limit op.cursor) :
    calm ((op.run hooksOf).exec w).2
      ∧ Interleaved g (turns ++ [⟨op, op.passages (hooksOf g) g w, ((op.run hooksOf).exec w).1⟩])
        ((op.run hooksOf).exec w).2
      ∧ ∀ {limit' c}, w.Iterates g limit' c →
        ((op.run hooksOf).exec w).2.Iterates g limit' c := by
  obtain ⟨answer, v, s', hexec, hv, hcalm, hstint⟩ :=
    IteratorCall.comesTo hquiet hspares hw own (h.poised own)
  have hspared := hspares.callAll hquiet (op.calls (hooksOf g) g w) (hspares.withCursor .busy hw own)
  rw [show callAll (hooksOf g) g (w.withCursor op.cursor .busy) _ = callAll (hooksOf g) g
    (op.during w) _ from rfl, ← hv] at hspared
  -- first only the iterator and the life of the generator are written, and then the rest
  let u := (w.withCursor op.cursor s').withLife g (v.life g)
  have hulife : u.life g = v.life g :=
    World.life_withLife (hquiet.present (hspares.withCursor s' hw own)) _
  have hu : u.SparesIterators g (w.withCursor op.cursor s') := .of_cursors_eq rfl
  have huspared := hu.trans (hspared.withCursor own s')
  have hown : u.cursorAt op.cursor = ⟨.run g limit, s'⟩ := World.cursorAt_withCursor own s'
  have hothers {c : CursorRef} (hne : op.cursor ≠ c) : u.cursorAt c = w.cursorAt c :=
    World.cursorAt_withCursor_of_ne hne s'
  rw [hexec]
  refine ⟨?_, ?_, fun {limit' c} hc => ?_⟩
  · have hbusy := World.cursorAt_withCursor own .busy
    have hv' : v.Iterates g limit op.cursor := by
      rw [World.Iterates, hspared.kept (congrArg Cursor.source hbusy), hbusy]
    exact hspares.withCursor s' hcalm hv'
  · have hcursor : w.cursorAt op.cursor = ⟨.run g limit, (w.cursorAt op.cursor).state⟩ := by
      rw [← own]
    rw [← hulife] at hstint
    exact (h.after_turn hcursor hstint hown hothers).elsewhere hulife.symm huspared
  · have huc : u.Iterates g limit' c := by
      by_cases hne : op.cursor = c
      · rw [World.Iterates, ← hne, hown, ← own, hne]
        exact hc
      · rw [World.Iterates, hothers hne]
        exact hc
    exact (congrArg Cursor.source (huspared.kept huc)).trans huc

theorem Interleaving.interleaved (h : Interleaving hooksOf g calm w turns w')
    (hquiet : (hooksOf g).Quiet g calm) (hspares : (hooksOf g).SparesIterators g calm)
    (hw : calm w) (hrest : w.AtRest g) : calm w' ∧ Interleaved g turns w'
      ∧ ∀ {limit c}, w.Iterates g limit c → w'.Iterates g limit c := by
  induction h with
  | start => exact ⟨hw, .nil hrest, fun hc => hc⟩
  | operated before op own ih =>
    obtain ⟨hcalm, hinterleaved, hkept⟩ := ih
    obtain ⟨hcalm', hinterleaved', hkept'⟩ := hinterleaved.step hquiet hspares hcalm own
    exact ⟨hcalm', hinterleaved', fun hc => hkept' (hkept hc)⟩
  | elsewhere before still same spared ih =>
    obtain ⟨-, hinterleaved, hkept⟩ := ih
    exact ⟨still, hinterleaved.elsewhere same spared, fun hc =>
      (congrArg Cursor.source (spared.kept (hkept hc))).trans (hkept hc)⟩

/-- Turns with nothing in between. -/
theorem Interleaving.of_takeTurns (hquiet : (hooksOf g).Quiet g calm)
    (hspares : (hooksOf g).SparesIterators g calm) (hw : calm w) (hrest : w.AtRest g)
    {ops : List IteratorCall} (hops : ∀ op ∈ ops, ∃ limit, w.Iterates g limit op.cursor) :
    Interleaving hooksOf g calm w (takeTurns hooksOf g w ops).1 (takeTurns hooksOf g w ops).2 := by
  induction ops using List.reverseRecOn with
  | nil => exact .start
  | append_singleton ops op ih =>
    have hbefore := ih fun op' hop' => hops op' (List.mem_append_left _ hop')
    obtain ⟨limit, hlimit⟩ := hops op (List.mem_append_right _ (List.mem_singleton_self _))
    rw [takeTurns_append]
    exact hbefore.operated op ((hbefore.interleaved hquiet hspares hw hrest).2.2 hlimit)

end Interleaved

/-- How iterators over a generator stand after turns. -/
structure TakesTurns (hooksOf : GeneratorRef → Hooks) (g : GeneratorRef) (turns : List Turn)
    (w : World) : Prop where
  /-- An iterator gives 1, 2, 3, …, and no more than its limit allows. -/
  items : ∀ limit c, w.Iterates g limit c → ∃ n, itemsOf (turnsOf c turns) = counted n
    ∧ ∀ m, limit = .calls m → n ≤ m
  /-- Begins that come through and ends alternate, from a begin on. -/
  alternating : List.IsChain (· ≠ ·) (false :: marks (passagesOf turns))
  /-- While an iterator holds its run, the first pull of another one is refused, runs
  no hook, and changes nothing but that this one is finished. -/
  waiting : ∀ limit c c', HoldsRun (turnsOf c turns) → w.cursorAt c' = ⟨.run g limit, .fresh⟩ →
    ∃ e, e.kind = .generatorState ∧
      ∀ hooksOf, (nextItem hooksOf c').exec w = (.error e, w.withCursor c' .finished)
  /-- An iterator that has begun a run gives items, and ends the run once, in the turn
  in which it gives none. -/
  ended_once : ∀ limit c, w.Iterates g limit c → marks (passagesOf (turnsOf c turns)) = []
    ∨ (marks (passagesOf (turnsOf c turns)) = [true] ∧ ∀ t ∈ turnsOf c turns, t.item? ≠ none)
    ∨ (marks (passagesOf (turnsOf c turns)) = [true, false]
      ∧ ∃ t ∈ turnsOf c turns, t.item? = none)
  /-- Closing an iterator before its first pull runs no hook. -/
  closing : ∀ limit c, w.cursorAt c = ⟨.run g limit, .fresh⟩ →
    ∀ hooksOf, (closeCursor hooksOf c).exec w = (.ok (), w.withCursor c .finished)
  /-- A turn is its calls to the generator, and no others. -/
  calls : ∀ limit (op : IteratorCall), w.Iterates g limit op.cursor →
    ∃ answer state, (op.run hooksOf).exec w = (answer,
      (callAll (hooksOf g) g (op.during w) (op.calls (hooksOf g) g w)).2.withCursor op.cursor state)

theorem Standing.items_le {limit : Limit} {ts : List Turn} {s : CursorState}
    (h : Standing limit ts s) :
    ∃ n, itemsOf ts = counted n ∧ ∀ m, limit = .calls m → n ≤ m := by
  have hbound {n : Nat} (below : ∀ j < n, limit.allows j) : ∀ m, limit = .calls m → n ≤ m := by
    rintro m rfl
    by_contra hm
    exact absurd (Limit.allows_iff.1 (below m (Nat.lt_of_not_le hm))) (Nat.lt_irrefl m)
  cases h with
  | fresh none => exact ⟨0, by rw [none]; rfl, hbound nofun⟩
  | paused items below => exact ⟨_, items, hbound below⟩
  | finished items below => exact ⟨_, items, hbound below⟩

theorem Standing.ended_once {limit : Limit} {ts : List Turn} {s : CursorState}
    (h : Standing limit ts s) : marks (passagesOf ts) = []
      ∨ (marks (passagesOf ts) = [true] ∧ ∀ t ∈ ts, t.item? ≠ none)
      ∨ (marks (passagesOf ts) = [true, false] ∧ ∃ t ∈ ts, t.item? = none) := by
  cases h with
  | fresh none =>
    rw [none]
    exact .inl rfl
  | paused items below yielding begun => exact .inr (.inl ⟨begun, yielding⟩)
  | finished items below ended => exact ended.imp_right .inr

/-- **Iterators over one generator take turns with their runs.** -/
theorem iterators_take_turns {hooksOf : GeneratorRef → Hooks} {g : GeneratorRef}
    {calm : World → Prop} {w w' : World} {turns : List Turn} (hquiet : (hooksOf g).Quiet g calm)
    (hspares : (hooksOf g).SparesIterators g calm) (hcalm : calm w) (hrest : w.AtRest g)
    (h : Interleaving hooksOf g calm w turns w') : TakesTurns hooksOf g turns w' := by
  obtain ⟨hcalm', hinterleaved, -⟩ := h.interleaved hquiet hspares hcalm hrest
  refine ⟨fun limit c hc => (hinterleaved.standing hc).items_le, ?_, fun limit c c' holds hc' => ?_,
    fun limit c hc => (hinterleaved.standing hc).ended_once,
    fun limit c hc => exec_closeCursor_idle (.inl rfl) hc, fun limit op hop => ?_⟩
  · obtain ⟨isOpen, halternates, -⟩ := hinterleaved.alternating
    exact halternates.1
  · exact exec_nextItem_refused hc' (hinterleaved.holding holds)
  · obtain ⟨answer, v, state, hexec, rfl, -, -⟩ :=
      IteratorCall.comesTo hquiet hspares hcalm' hop (hinterleaved.poised hop)
    exact ⟨answer, state, hexec⟩

/-! ## §6. Four iterators. -/

theorem GenerationScript.Announces.sparesIterators {script : GenerationScript Step}
    (h : script.Announces) (depth : Nat) (g : GeneratorRef) :
    (scriptHooks (Session.hostOfDepth (depth + 1)) g).SparesIterators g
      (World.Stages (Session.hostOfDepth depth) g script) where
  withCursor := fun _ hw _ => ⟨hw.present, hw.script_eq, hw.passive⟩
  hook := fun c _ hw => .of_cursors_eq (h.played hw c).cursors_eq

namespace Announcing

/-- Four iterators over the steps of a generator; the first one makes one step at most. -/
def fourIterators : World :=
  { stage threeSteps with
    cursors := ⟨[⟨.run ⟨0⟩ (.calls 1), .fresh⟩, ⟨.run ⟨0⟩ .unlimited, .fresh⟩,
      ⟨.run ⟨0⟩ .unlimited, .fresh⟩, ⟨.run ⟨0⟩ .unlimited, .fresh⟩]⟩ }

theorem atRest_fourIterators : fourIterators.AtRest ⟨0⟩ := by
  refine ⟨rfl, fun {limit c} hc => .inl ?_⟩
  obtain ⟨i⟩ := c
  have hi : i < 4 := hc.present
  obtain rfl | rfl | rfl | rfl : i = 0 ∨ i = 1 ∨ i = 2 ∨ i = 3 := by omega
  all_goals rfl

end Announcing

open Announcing Session in
/-- The second iterator is pulled in the middle of the first one's run; the third one
fails in its second step, and the fourth one is never pulled. -/
theorem iterators_take_turns_fourIterators :
    let r := takeTurns (scriptHooks standardHost) ⟨0⟩ fourIterators
      [.next ⟨0⟩, .next ⟨1⟩, .next ⟨0⟩, .next ⟨2⟩, .next ⟨2⟩, .close ⟨3⟩]
    TakesTurns (scriptHooks standardHost) ⟨0⟩ r.1 r.2
    ∧ marks (passagesOf r.1) = [true, false, true, false]
    ∧ (r.1.map fun t => (t.answer.isOk, t.item?.isSome))
      = [(true, true), (false, false), (true, false), (true, true), (false, false),
        (true, false)] := by
  have hscript := announces_threeSteps
  have hstage : fourIterators.Stages (hostOfDepth 399) ⟨0⟩ threeSteps :=
    ⟨Nat.one_pos, rfl, (stages_stage 398 threeSteps).passive⟩
  refine ⟨?_, by decide +kernel, by decide +kernel⟩
  refine iterators_take_turns (hscript.quiet 399 ⟨0⟩) (hscript.sparesIterators 399 ⟨0⟩) hstage
    atRest_fourIterators (.of_takeTurns (hscript.quiet 399 ⟨0⟩) (hscript.sparesIterators 399 ⟨0⟩)
      hstage atRest_fourIterators ?_)
  simp only [List.forall_mem_cons, List.not_mem_nil, false_imp_iff, implies_true, and_true]
  exact ⟨⟨_, rfl⟩, ⟨_, rfl⟩, ⟨_, rfl⟩, ⟨_, rfl⟩, ⟨_, rfl⟩, ⟨_, rfl⟩⟩

end EvolvingGraph
