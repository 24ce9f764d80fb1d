/-
  EvolvingGraph.Proofs.Delivery.Copying
  ─────────────────────────────────────
  **A COPY THAT HEARS OF ALL CHANGES IN ORDER NEVER FAILS.**

  A graph is attached to another one that has the same nodes and edges.  It hears
  of each change before anything else is made of it, as long as the sinks before it
  leave the other graph alone; so it can follow, whatever the sinks after it do,
  whatever its own sinks do to the other graph, and however deep their changes
  are nested.

  There is one thing that must not happen besides: that a node goes which has
  edges.  This can come about where an edge is added while the removal of others
  is being reported.  The edge then keeps its id, though the node is gone, and
  the graph is no longer coherent.

  Main statements:
    * `Happens.unmade` — a graph that makes no change holds what it held;
    * `Happens.staysInStep` — what is kept, task by task;
    * `Happens.copy_inStep` — so the two have the same nodes and edges, and the copy
      never fails.
-/
import EvolvingGraph.Proofs.Delivery.InOrder
import EvolvingGraph.Proofs.Delivery.Upholding
import EvolvingGraph.Proofs.Graph.Frame

namespace EvolvingGraph

/-! ## §1. What must not happen. -/

/-- Where something happens, as seen from a graph and its copy. -/
inductive Place where
  /-- Where the graph tells its sinks of a change. -/
  | round
  /-- Where the copy follows, when it is told. -/
  | copy
  | elsewhere
  deriving DecidableEq

/-- Where a graph tells its sinks. -/
def Place.roundOf (g x : GraphRef) : Place := if x = g then .round else .elsewhere

/-- Where a sink is told, in a round or elsewhere. -/
def Place.reactionOf (m : GraphRef) (r : SinkRef) : Place → Place
  | .round => if r = .graph m then .copy else .elsewhere
  | .copy | .elsewhere => .elsewhere

namespace Account

/-- Whenever a graph removes a node, this node has no edges. -/
def Orderly (g : GraphRef) : Account → Prop
  | nothing => True
  | making x before change _ _ inside rest =>
    (x = g → before.Orderly change) ∧ inside.Orderly g ∧ rest.Orderly g
  | telling _ _ _ _ inside rest => inside.Orderly g ∧ rest.Orderly g
  | writing _ rest | cut rest => rest.Orderly g

/-- In a round, no sink fails. -/
def Smooth : Account → Prop
  | telling _ _ _ result _ rest => result = .ok () ∧ rest.Smooth
  | cut _ => False
  | nothing | making .. | writing .. => True

/-- A copy makes changes only to follow the graph, and then its own sinks do not
fail. -/
def LeftTo (g m : GraphRef) : Place → Account → Prop
  | _, nothing => True
  | place, making x _ _ _ _ inside rest =>
    (x = m → place = .copy ∧ inside.Smooth)
      ∧ inside.LeftTo g m (.roundOf g x) ∧ rest.LeftTo g m place
  | place, telling _ r _ _ inside rest =>
    inside.LeftTo g m (place.reactionOf m r) ∧ rest.LeftTo g m place
  | place, writing _ rest | place, cut rest => rest.LeftTo g m place

variable {g m : GraphRef} {s : SinkRef}

@[simp] theorem orderly_append (a b : Account) :
    (a.append b).Orderly g ↔ a.Orderly g ∧ b.Orderly g := by
  induction a with
  | nothing => simp [append, Orderly]
  | making x before change audience event inside rest _ ih => simp [append, Orderly, ih, and_assoc]
  | telling x r event result inside rest _ ih => simp [append, Orderly, ih, and_assoc]
  | writing receipt rest ih => simp [append, Orderly, ih]
  | cut rest ih => simp [append, Orderly, ih]

@[simp] theorem leftTo_append (place : Place) (a b : Account) :
    (a.append b).LeftTo g m place ↔ a.LeftTo g m place ∧ b.LeftTo g m place := by
  induction a with
  | nothing => simp [append, LeftTo]
  | making x before change audience event inside rest _ ih => simp [append, LeftTo, ih, and_assoc]
  | telling x r event result inside rest _ ih => simp [append, LeftTo, ih, and_assoc]
  | writing receipt rest ih => simp [append, LeftTo, ih]
  | cut rest ih => simp [append, LeftTo, ih]

/-- Where the graph makes no change, the copy makes none. -/
theorem LeftTo.made_eq_nil {a : Account} (h : a.LeftTo g m .elsewhere) (hg : a.made g = []) :
    a.made m = [] := by
  induction a with
  | nothing => rfl
  | making x before change audience event inside rest ih ih' =>
    obtain ⟨hm, hinside, hrest⟩ := h
    have hx : x ≠ g := by
      rintro rfl
      simp [made] at hg
    have hx' : x ≠ m := fun h => absurd (hm h).1 (by decide)
    simp only [made, hx, hx', Place.roundOf, if_false, List.nil_append,
      List.append_eq_nil_iff] at hg hinside ⊢
    exact ⟨ih hinside hg.1, ih' hrest hg.2⟩
  | telling x r event result inside rest ih ih' =>
    obtain ⟨hinside, hrest⟩ := h
    obtain ⟨hg, hg'⟩ := List.append_eq_nil_iff.1 hg
    exact List.append_eq_nil_iff.2 ⟨ih hinside hg, ih' hrest hg'⟩
  | writing receipt rest ih => exact ih h hg
  | cut rest ih => exact ih h hg

/-- A sink that is told of nothing does not fail. -/
theorem neverFails_of_received_eq_nil {a : Account} (h : a.received g s = []) :
    a.NeverFails g s := by
  induction a with
  | nothing => trivial
  | making x before change audience event inside rest ih ih' =>
    obtain ⟨hinside, hrest⟩ := List.append_eq_nil_iff.1 h
    exact ⟨ih hinside, ih' hrest⟩
  | telling x r event result inside rest ih ih' =>
    simp only [received, List.append_eq_nil_iff] at h
    obtain ⟨⟨htold, hinside⟩, hrest⟩ := h
    refine ⟨fun hx hr => ?_, ih hinside, ih' hrest⟩
    simp [hx, hr] at htold
  | writing receipt rest ih => exact ih h
  | cut rest ih => exact ih h

end Account

/-- A round in which no sink fails comes to its end. -/
theorem Happens.ok_of_smooth {task : Task} {w w' : World} {a : Account}
    {result : Except Error Unit} (h : Happens task w a result w') :
    match task with
    | .round .. => a.Smooth → result = .ok ()
    | _ => True := by
  induction h with
  | allTold => exact fun _ => rfl
  | told reaction rest _ ih => exact fun hsmooth => ih hsmooth.2
  | failed reaction _ => exact fun hsmooth => absurd hsmooth.1 (by simp)
  | tooDeep => exact fun hsmooth => hsmooth.elim
  | _ => trivial

/-! ## §2. Graphs that make no change. -/

/-- A world in which a graph is there and holds something given. -/
def World.Holds (w : World) (g : GraphRef) (graph : Graph) : Prop :=
  w.HasGraph g ∧ (w.objectAt g).graph = graph

namespace World

variable {w w' : World} {g x : GraphRef} {graph graph' : Graph}

theorem Holds.put_of_ne (h : w.Holds g graph) (hx : x ≠ g) : (w.put x graph').Holds g graph := by
  refine ⟨(hasGraph_put graph').2 h.1, ?_⟩
  rw [objectAt_put_of_ne hx]
  exact h.2

theorem Holds.put_self (h : w.Holds g graph) : (w.put g graph').Holds g graph' := by
  refine ⟨(hasGraph_put graph').2 h.1, ?_⟩
  rw [objectAt_put_self h.1]

theorem Holds.keeps (h : w.Holds g graph) (hsame : w.KeepsGraphs w') : w'.Holds g graph :=
  ⟨(hsame.graphs g h.1).1, (hsame.graphs g h.1).2.trans h.2⟩

/-- A change that is not reported leaves a coherent graph, whichever graph makes it. -/
theorem Holds.put_apply (h : w.Holds g graph) (hg : graph.Coherent) {c : Change}
    {r : Except Error (Option Event)} (happly : (w.objectAt x).graph.apply c = (graph', r))
    (hr : ∀ e, r ≠ .ok (some e)) : (w.put x graph').Holds g graph := by
  by_cases hx : x = g
  · subst hx
    rw [h.2] at happly
    rw [hg.apply_eq happly hr]
    exact h.put_self
  · exact h.put_of_ne hx

end World

/-- **A coherent graph that makes no change holds what it held.** -/
theorem Happens.unmade {task : Task} {w w' : World} {a : Account} {result : Except Error Unit}
    (h : Happens task w a result w') {g : GraphRef} {graph : Graph} (hg : graph.Coherent)
    (hw : w.Holds g graph) (hmade : a.made g = []) : w'.Holds g graph := by
  have hnone : a.AllMade g fun _ _ _ => False := by
    apply Account.allMade_of_made
    simp [hmade]
  have hkept : KeptBy (· = graph) fun _ _ _ => False :=
    ⟨fun _ hfalse => hfalse.elim, fun heq happly hr => by
      subst heq
      exact hg.apply_eq happly hr⟩
  exact h.keeps hkept hw hnone

/-! ## §3. A graph and its copy. -/

/-- Two coherent graphs have the same nodes and edges. -/
structure InStep (g m : GraphRef) (w : World) : Prop where
  apart : g ≠ m
  source_present : w.HasGraph g
  copy_present : w.HasGraph m
  source_coherent : (w.objectAt g).graph.Coherent
  copy_coherent : (w.objectAt m).graph.Coherent
  frame : (w.objectAt g).graph.SameFrame (w.objectAt m).graph

/-- The first of two graphs has made a change that the second one has not yet
heard of.  What the two hold is given. -/
structure Ahead (g m : GraphRef) (event : Event) (after held : Graph) (w : World) : Prop where
  apart : g ≠ m
  source : w.Holds g after
  copy : w.Holds m held
  source_coherent : after.Coherent
  copy_coherent : held.Coherent
  catchesUp : held.CatchesUp event after

variable {g m : GraphRef} {w w' : World} {after held graph : Graph} {event : Event}

theorem InStep.of_holds (apart : g ≠ m) (source : w.Holds g after) (copy : w.Holds m held)
    (hsource : after.Coherent) (hcopy : held.Coherent) (frame : after.SameFrame held) :
    InStep g m w where
  apart := apart
  source_present := source.1
  copy_present := copy.1
  source_coherent := source.2.symm ▸ hsource
  copy_coherent := copy.2.symm ▸ hcopy
  frame := by
    rw [source.2, copy.2]
    exact frame

namespace InStep

theorem source_holds (h : InStep g m w) : w.Holds g (w.objectAt g).graph := ⟨h.source_present, rfl⟩

theorem copy_holds (h : InStep g m w) : w.Holds m (w.objectAt m).graph := ⟨h.copy_present, rfl⟩

/-- Where both graphs hold what they held, they are still in step. -/
theorem of_kept (h : InStep g m w) (source : w'.Holds g (w.objectAt g).graph)
    (copy : w'.Holds m (w.objectAt m).graph) : InStep g m w' :=
  .of_holds h.apart source copy h.source_coherent h.copy_coherent h.frame

theorem keeps (h : InStep g m w) (hsame : w.KeepsGraphs w') : InStep g m w' :=
  h.of_kept (h.source_holds.keeps hsame) (h.copy_holds.keeps hsame)

/-- A change that is not reported keeps the two in step, whichever graph makes it. -/
theorem put_apply (h : InStep g m w) {x : GraphRef} {c : Change} {r : Except Error (Option Event)}
    (happly : (w.objectAt x).graph.apply c = (graph, r)) (hr : ∀ e, r ≠ .ok (some e)) :
    InStep g m (w.put x graph) :=
  h.of_kept (h.source_holds.put_apply h.source_coherent happly hr)
    (h.copy_holds.put_apply h.copy_coherent happly hr)

theorem put_of_ne (h : InStep g m w) {x : GraphRef} (hg : x ≠ g) (hm : x ≠ m) (graph : Graph) :
    InStep g m (w.put x graph) :=
  h.of_kept (h.source_holds.put_of_ne hg) (h.copy_holds.put_of_ne hm)

theorem receive (h : InStep g m w) (receipts : List Receipt) : InStep g m (w.receive receipts) :=
  h.of_kept h.source_holds h.copy_holds

theorem ahead (h : InStep g m w) {c : Change}
    (htakes : (w.objectAt g).graph.Takes c graph event)
    (horderly : (w.objectAt g).graph.Orderly c) :
    Ahead g m event graph (w.objectAt m).graph (w.put g graph) where
  apart := h.apart
  source := h.source_holds.put_self
  copy := h.copy_holds.put_of_ne h.apart
  source_coherent := h.source_coherent.takes htakes horderly
  copy_coherent := h.copy_coherent
  catchesUp := h.frame.catchesUp h.source_coherent h.copy_coherent htakes horderly

end InStep

namespace Ahead

/-- To follow, the copy has to make this change and no other. -/
theorem plan (h : Ahead g m event after held w) :
    (w.objectAt m).graph.plan event.asChange .empty = .ok [event.asChange] := by
  rw [h.copy.2]
  exact h.catchesUp.planned

/-- It can make it, and then the two are in step again. -/
theorem put (h : Ahead g m event after held w) : ∃ h' reported,
    (w.objectAt m).graph.apply event.asChange = (h', .ok reported) ∧ InStep g m (w.put m h') := by
  obtain ⟨h', reported, happly, hcoherent, hframe⟩ := h.catchesUp.made
  rw [← h.copy.2] at happly
  exact ⟨h', reported, happly, .of_holds h.apart (h.source.put_of_ne h.apart.symm)
    h.copy.put_self h.source_coherent hcoherent hframe⟩

/-- As long as neither of the two makes a change, the copy stays behind. -/
theorem unmade (hw : Ahead g m event after held w) {task : Task} {a : Account}
    {result : Except Error Unit} (h : Happens task w a result w')
    (hleft : a.LeftTo g m .elsewhere) (hmade : a.made g = []) :
    Ahead g m event after held w' :=
  ⟨hw.apart, h.unmade hw.source_coherent hw.source hmade,
    h.unmade hw.copy_coherent hw.copy (hleft.made_eq_nil hmade), hw.source_coherent,
    hw.copy_coherent, hw.catchesUp⟩

end Ahead

/-! ## §4. The copy never fails. -/

/-- What is assumed of an account: the copy is attached all the time, behind sinks
that leave the graph alone; it is left to the graph; and no node goes that has edges. -/
structure Account.Faithful (g m : GraphRef) (place : Place) (a : Account) : Prop where
  undisturbed : a.Undisturbed g (.graph m)
  orderly : a.Orderly g
  leftTo : a.LeftTo g m place

namespace Account

variable {place : Place} {a b inside rest : Account} {x : GraphRef} {s : SinkRef} {event : Event}

theorem faithful_append :
    (a.append b).Faithful g m place ↔ a.Faithful g m place ∧ b.Faithful g m place := by
  constructor
  · rintro ⟨hundisturbed, horderly, hleft⟩
    rw [undisturbed_append] at hundisturbed
    rw [orderly_append] at horderly
    rw [leftTo_append] at hleft
    exact ⟨⟨hundisturbed.1, horderly.1, hleft.1⟩, ⟨hundisturbed.2, horderly.2, hleft.2⟩⟩
  · rintro ⟨⟨hundisturbed, horderly, hleft⟩, ⟨hundisturbed', horderly', hleft'⟩⟩
    exact ⟨(undisturbed_append a b).2 ⟨hundisturbed, hundisturbed'⟩,
      (orderly_append a b).2 ⟨horderly, horderly'⟩, (leftTo_append place a b).2 ⟨hleft, hleft'⟩⟩

/-- What is assumed of a change that is made: of the graph, of the copy, of what
comes of it and of what comes after it. -/
theorem Faithful.making {before : Graph} {change : Change} {audience : List SinkRef}
    (h : (making x before change audience event inside rest).Faithful g m place) :
    (x = g → .graph m ∈ audience ∧ audience.Nodup ∧ inside.Clear g (.graph m)
        ∧ before.Orderly change)
      ∧ (x = m → place = .copy ∧ inside.Smooth)
      ∧ inside.Faithful g m (.roundOf g x) ∧ rest.Faithful g m place := by
  obtain ⟨⟨hheard, hundisturbed, hundisturbed'⟩, ⟨horder, horderly, horderly'⟩,
    hcopy, hleft, hleft'⟩ := h
  refine ⟨fun hx => ?_, hcopy, ⟨hundisturbed, horderly, hleft⟩, hundisturbed', horderly', hleft'⟩
  obtain ⟨hmem, hnodup, hclear⟩ := hheard hx
  exact ⟨hmem, hnodup, hclear, horder hx⟩

theorem Faithful.telling {result : Except Error Unit}
    (h : (telling x s event result inside rest).Faithful g m place) :
    inside.Faithful g m (place.reactionOf m s) ∧ rest.Faithful g m place :=
  ⟨⟨h.undisturbed.1, h.orderly.1, h.leftTo.1⟩, h.undisturbed.2, h.orderly.2, h.leftTo.2⟩

end Account

/-- The two are in step, and the copy has not failed on the way. -/
structure Settled (g m : GraphRef) (a : Account) (w : World) : Prop where
  inStep : InStep g m w
  neverFails : a.NeverFails g (.graph m)

/-- What is kept while a task is done: two graphs in step stay in step.  Where the
copy has not yet heard of a change, it hears of it in the round, by its own
reaction, by making the change. -/
def StaysInStep (g m : GraphRef) (w : World) (a : Account) (result : Except Error Unit)
    (w' : World) : Task → Prop
  | .anything => a.Faithful g m .elsewhere → InStep g m w → Settled g m a w'
  | .changes x cs => (a.Faithful g m .elsewhere → InStep g m w → Settled g m a w')
    ∧ ∀ event after held, x = m → cs = [event.asChange] → a.Faithful g m .copy →
      Ahead g m event after held w → result = .ok () ∧ Settled g m a w'
  | .round x _ event sinks =>
    (a.Faithful g m (.roundOf g x) → (x ≠ g ∨ .graph m ∉ sinks) → InStep g m w → Settled g m a w')
    ∧ ∀ after held, x = g → a.Faithful g m .round → .graph m ∈ sinks → sinks.Nodup →
      a.Clear g (.graph m) → Ahead g m event after held w → Settled g m a w'
  | .reaction s _ event => (a.Faithful g m .elsewhere → InStep g m w → Settled g m a w')
    ∧ ∀ after held, s = .graph m → a.Faithful g m .copy → Ahead g m event after held w →
      result = .ok () ∧ Settled g m a w'

section Rounds

variable {x : GraphRef} {sender : Value} {event : Event} {sinks : List SinkRef}
  {inside rest : Account} {result : Except Error Unit}

/-- After the round of a change that the copy does not make of itself, the two are
in step. -/
theorem StaysInStep.settled {c : Change} {graph : Graph}
    (ih : StaysInStep g m (w.put x graph) inside result w' (.round x sender event sinks))
    (takes : (w.objectAt x).graph.Takes c graph event)
    (hfaithful : (Account.making x (w.objectAt x).graph c sinks event inside rest).Faithful g m
      .elsewhere) (hw : InStep g m w) : Settled g m inside w' := by
  obtain ⟨hsource, hcopy, hinside, -⟩ := hfaithful.making
  by_cases hx : x = g
  · subst hx
    obtain ⟨hmem, hnodup, hclear, horderly⟩ := hsource rfl
    rw [Place.roundOf, if_pos rfl] at hinside
    exact ih.2 _ _ rfl hinside hmem hnodup hclear (hw.ahead takes horderly)
  · have hm : x ≠ m := fun h => absurd (hcopy h).1 (by decide)
    exact ih.1 hinside (.inl hx) (hw.put_of_ne hx hm graph)

/-- In a round that is not to reach the copy, sinks react as they do elsewhere. -/
theorem Account.Faithful.telling_other {s : SinkRef}
    (h : (Account.telling x s event result inside rest).Faithful g m (.roundOf g x))
    (hnot : x ≠ g ∨ .graph m ∉ s :: sinks) :
    inside.Faithful g m .elsewhere ∧ rest.Faithful g m (.roundOf g x)
      ∧ (x ≠ g ∨ .graph m ∉ sinks) := by
  obtain ⟨hinside, hrest⟩ := h.telling
  have hplace : (Place.roundOf g x).reactionOf m s = .elsewhere := by
    unfold Place.roundOf
    obtain hx | hmem := hnot
    · rw [if_neg hx]
      rfl
    · have hs : s ≠ .graph m := fun h => hmem (h ▸ List.mem_cons_self)
      split
      · exact if_neg hs
      · rfl
  rw [hplace] at hinside
  exact ⟨hinside, hrest, hnot.imp_right fun h hmem => h (List.mem_cons_of_mem _ hmem)⟩

end Rounds

/-- The invariant, by induction on what happens. -/
theorem Happens.staysInStep {task : Task} {a : Account} {result : Except Error Unit}
    (h : Happens task w a result w') : StaysInStep g m w a result w' task := by
  induction h with
  | rest => exact fun _ hw => ⟨hw, trivial⟩
  | elsewhere before same ih =>
    intro hfaithful hw
    obtain ⟨hstep, hnever⟩ := ih hfaithful hw
    exact ⟨hstep.keeps same, hnever⟩
  | written before receipt ih =>
    intro hfaithful hw
    obtain ⟨hstep, hnever⟩ := ih (Account.faithful_append.1 hfaithful).1 hw
    exact ⟨hstep.receive _, (Account.neverFails_append _ _).2 ⟨hnever, trivial⟩⟩
  | request before changes ih ih' =>
    intro hfaithful hw
    obtain ⟨hbefore, hchanges⟩ := Account.faithful_append.1 hfaithful
    obtain ⟨hstep, hnever⟩ := ih hbefore hw
    obtain ⟨hstep', hnever'⟩ := ih'.1 hchanges hstep
    exact ⟨hstep', (Account.neverFails_append _ _).2 ⟨hnever, hnever'⟩⟩
  | unchanged => exact ⟨fun _ hw => ⟨hw, trivial⟩, fun event after held _ hcs => by simp at hcs⟩
  | refused outcome =>
    refine ⟨fun _ hw => ⟨hw.put_apply outcome (by simp), trivial⟩, ?_⟩
    rintro event after held rfl hcs _ hw
    obtain rfl := (List.cons.inj hcs).1
    obtain ⟨_, _, happly, -⟩ := hw.put
    exact absurd (happly.symm.trans outcome) (by simp)
  | idle outcome rest ih =>
    refine ⟨fun hfaithful hw => ih.1 hfaithful (hw.put_apply outcome (by simp)), ?_⟩
    rintro event after held rfl hcs _ hw
    obtain ⟨rfl, rfl⟩ := List.cons.inj hcs
    obtain ⟨graph, _, happly, hstep⟩ := hw.put
    obtain ⟨rfl, -⟩ := Prod.mk.inj (happly.symm.trans outcome)
    cases rest with
    | unchanged => exact ⟨rfl, hstep, trivial⟩
  | made takes round rest ih ih' =>
    constructor
    · intro hfaithful hw
      obtain ⟨hinside, hnever⟩ := ih.settled takes hfaithful hw
      obtain ⟨hrest, hnever'⟩ := ih'.1 hfaithful.making.2.2.2 hinside
      exact ⟨hrest, hnever, hnever'⟩
    · rintro event after held rfl hcs hfaithful hw
      obtain ⟨rfl, rfl⟩ := List.cons.inj hcs
      obtain ⟨graph, _, happly, hstep⟩ := hw.put
      obtain ⟨rfl, -⟩ := Prod.mk.inj (happly.symm.trans (Graph.apply_eq_some_iff.2 takes))
      -- what the copy's own sinks do happens when the two are in step again
      obtain ⟨hinside, hnever⟩ := ih.1 hfaithful.making.2.2.1 (.inl hw.apart.symm) hstep
      cases rest with
      | unchanged => exact ⟨rfl, hinside, hnever, trivial⟩
  | broken takes round ih =>
    constructor
    · intro hfaithful hw
      obtain ⟨hinside, hnever⟩ := ih.settled takes hfaithful hw
      exact ⟨hinside, hnever, trivial⟩
    · rintro event after held rfl - hfaithful -
      exact absurd (round.ok_of_smooth (hfaithful.making.2.1 rfl).2) (by simp)
  | allTold =>
    exact ⟨fun _ _ hw => ⟨hw, trivial⟩, fun after held _ _ hmem => absurd hmem List.not_mem_nil⟩
  | @told v u u' x sender event r sinks inside rest' result reaction rest ih ih' =>
    constructor
    · intro hfaithful hnot hw
      obtain ⟨hinside, hrest, hlater⟩ := hfaithful.telling_other hnot
      obtain ⟨hstep, hnever⟩ := ih.1 hinside hw
      obtain ⟨hstep', hnever'⟩ := ih'.1 hrest hlater hstep
      exact ⟨hstep', fun _ _ => rfl, hnever, hnever'⟩
    · rintro after held rfl hfaithful hmem hnodup hclear hw
      obtain ⟨hinside, hrest⟩ := hfaithful.telling
      obtain ⟨hfresh, hnodup'⟩ := List.nodup_cons.1 hnodup
      by_cases hr : r = .graph m
      · subst hr
        rw [Place.reactionOf, if_pos rfl] at hinside
        obtain ⟨-, hstep, hnever⟩ := ih.2 after held rfl hinside hw
        -- the copy is not told once more
        have hplace : Place.roundOf x x = .round := if_pos rfl
        obtain ⟨hstep', hnever'⟩ := ih'.1 (hplace ▸ hrest) (.inr hfresh) hstep
        exact ⟨hstep', fun _ _ => rfl, hnever, hnever'⟩
      · obtain ⟨-, hmade, hclear'⟩ := hclear.resolve_left hr
        rw [Place.reactionOf, if_neg hr] at hinside
        have hquiet : inside.NeverFails x (.graph m) := Account.neverFails_of_received_eq_nil
          ((reaction.inOrder hinside.undisturbed).trans hmade)
        obtain ⟨hstep, hnever⟩ := ih'.2 after held rfl hrest
          ((List.mem_cons.1 hmem).resolve_left (Ne.symm hr)) hnodup' hclear'
          (hw.unmade reaction hinside.leftTo hmade)
        exact ⟨hstep, fun _ h => absurd h hr, hquiet, hnever⟩
  | @failed v u x sender event r sinks inside e reaction ih =>
    constructor
    · intro hfaithful hnot hw
      obtain ⟨hstep, hnever⟩ := ih.1 (hfaithful.telling_other hnot).1 hw
      refine ⟨hstep, fun hx hr => ?_, hnever, trivial⟩
      simp [hx, hr] at hnot
    · rintro after held rfl hfaithful hmem hnodup hclear hw
      have hinside := hfaithful.telling.1
      -- the sinks before the copy do not fail, and the copy does not either
      obtain rfl | ⟨hresult, -⟩ := hclear
      · rw [Place.reactionOf, if_pos rfl] at hinside
        exact absurd (ih.2 after held rfl hinside hw).1 (by simp)
      · exact absurd hresult (by simp)
  | tooDeep =>
    exact ⟨fun _ _ hw => ⟨hw, trivial⟩, fun after held _ _ _ _ hclear => hclear.elim⟩
  | follows planned changes ih =>
    refine ⟨ih.1, fun after held hx hfaithful hw => ?_⟩
    obtain rfl := SinkRef.graph.inj hx
    obtain rfl := Except.ok.inj (planned.symm.trans hw.plan)
    exact ih.2 _ after held rfl rfl hfaithful hw
  | refuses planned =>
    refine ⟨fun _ hw => ⟨hw, trivial⟩, fun after held hx _ hw => ?_⟩
    obtain rfl := SinkRef.graph.inj hx
    exact absurd (planned.symm.trans hw.plan) (by simp)
  | records result doings ih =>
    refine ⟨fun hfaithful hw => ?_, fun after held hs => by simp at hs⟩
    obtain ⟨hstep, hnever⟩ := ih ⟨hfaithful.undisturbed, hfaithful.orderly, hfaithful.leftTo⟩
      (hw.receive _)
    exact ⟨hstep, hnever⟩
  | ignores => exact ⟨fun _ hw => ⟨hw, trivial⟩, fun after held hs => by simp at hs⟩
  | cannot => exact ⟨fun _ hw => ⟨hw, trivial⟩, fun after held hs => by simp at hs⟩

/-- **A copy that is left to a graph, and before which no sink disturbs the graph,
stays in step and never fails.** -/
theorem Happens.copy_inStep {a : Account} {result : Except Error Unit}
    (h : Happens .anything w a result w') (hw : InStep g m w)
    (hfaithful : a.Faithful g m .elsewhere) : InStep g m w' ∧ a.NeverFails g (.graph m) :=
  let ⟨hstep, hnever⟩ := h.staysInStep hfaithful hw
  ⟨hstep, hnever⟩

end EvolvingGraph
