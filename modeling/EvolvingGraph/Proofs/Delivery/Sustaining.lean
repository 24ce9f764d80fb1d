/-
  EvolvingGraph.Proofs.Delivery.Sustaining
  ────────────────────────────────────────
  **WHAT CHANGES TO GRAPHS KEEP, THE LIBRARY'S OPERATIONS KEEP.**

  Graphs are changed by changes that are made and reported; there is no other
  way.  So what is kept by these, by whatever sinks do, and by all that leaves
  the graphs as they are, is kept by every operation on graphs, trees,
  generators and iterators.

  Generators are moved by their three calls; no other operation does it.  Something
  that is also about the runs of generators is kept by every operation if it is
  kept by these (`KeepsCalls`).  In the same way what is also about the
  configurations of trees is kept by every operation if it is kept by the making of
  trees and by assignments (`KeepsAssignments`), and what is also about the lists of
  sinks if it is kept by attaching and detaching (`KeepsAttachments`).

  Main statements:
    * `Sustained` — what is kept by changes under a host;
    * `KeepsAssignments` — what is kept by assignments to trees;
    * `KeepsAttachments` — what is kept when sinks are attached and detached;
    * `KeepsCalls` — what is kept by the calls to a generator;
    * the instances of `Run.Keeps` — one for each operation.
-/
import EvolvingGraph.Generation.Scripted
import EvolvingGraph.Iteration
import EvolvingGraph.Marking.Builder
import EvolvingGraph.Proofs.Delivery.Keeping
import EvolvingGraph.Proofs.Marking.Assignments

namespace EvolvingGraph

open Run

/-- What is kept by all changes to graphs under a host, by all that sinks do, by all
announcements, and by all steps that are played. -/
class Sustained (kept : World → Prop) (host : Host) : Prop where
  commit : ∀ g c, Keeps kept (commit host g c)
  notify : ∀ s sender event, Keeps kept (host.notify s sender event)
  announce : ∀ g c attributes old, Keeps kept (announce host g c attributes old)
  play : ∀ self steps, Keeps kept (host.play self steps)

variable {α : Type} {kept : World → Prop}

/-! ## §1. Changes and announcements. -/

section Emission

variable {host : Host} [∀ s sender event, Keeps kept (host.notify s sender event)]

theorem keeps_emit_of_notify (emitter : Emitter) (event : Event) :
    Keeps kept (emit host emitter event) := by
  unfold emit
  infer_instance

/-- What is kept by sinks is kept by the announcements that they are told of. -/
theorem keeps_announce_of_notify (g : GeneratorRef) (c : Change) (attributes : Attributes)
    (old : Value) : Keeps kept (announce host g c attributes old) := by
  refine ⟨fun w hw => ?_⟩
  unfold announce
  cases c.accepts attributes with
  | false => exact hw
  | true =>
    refine forM_keeps (fun d _ v hv => ?_) hw
    refine (Keeps.bind inferInstance fun x => ?_).after v hv
    dsimp only
    split
    · exact keeps_emit_of_notify ..
    · infer_instance

end Emission

section Delivery

variable {host : Host} [Sustained kept host]

instance (g : GraphRef) (c : Change) : Keeps kept (commit host g c) := Sustained.commit g c

instance (s : SinkRef) (sender : Value) (event : Event) :
    Keeps kept (host.notify s sender event) := Sustained.notify s sender event

instance (self : Option Object) (steps : List Step) : Keeps kept (host.play self steps) :=
  Sustained.play self steps

instance (g : GraphRef) (c : Change) (attributes : Attributes) :
    Keeps kept (perform host g c attributes) := by
  unfold perform
  infer_instance

instance (g : GraphRef) (event : Event) : Keeps kept (follow host g event) := by
  unfold follow
  infer_instance

instance (g : GeneratorRef) (c : Change) (attributes : Attributes) (old : Value) :
    Keeps kept (announce host g c attributes old) := Sustained.announce g c attributes old

/-- A recorder writes the event down first, and then plays steps, if any. -/
theorem exec_record_atRest (host : Host) (i : Nat) (sender : Value) (event : Event) (w : World) :
    ∃ w', (w.receive [⟨(w.recorders.get i).label, sender, event⟩]).KeepsGraphs w'
      ∧ (w.receive [⟨(w.recorders.get i).label, sender, event⟩]).KeepsRuns w'
      ∧ w'.trees = w.trees ∧ w.KeepsSinks w'
      ∧ ((record host i sender event).exec w = (.ok (), w')
        ∨ ∃ steps, (record host i sender event).exec w = (host.play none steps).exec w') := by
  refine ⟨{ w.receive [⟨(w.recorders.get i).label, sender, event⟩] with
    recorders := w.recorders.set i { w.recorders.get i with
      reactions := (takeReaction event.kind (w.recorders.get i).reactions).2 } },
    .of_graphs_eq rfl rfl, .of_eq rfl rfl, rfl, .of_eq rfl rfl, ?_⟩
  unfold record
  simp only [exec_bind, exec_get, exec_set]
  rcases htake : takeReaction event.kind (w.recorders.get i).reactions with ⟨_ | r, others⟩
  · exact .inl rfl
  · exact .inr ⟨r.steps, rfl⟩

theorem exec_record (host : Host) (i : Nat) (sender : Value) (event : Event) (w : World) :
    ∃ w', (w.receive [⟨(w.recorders.get i).label, sender, event⟩]).KeepsGraphs w' ∧
      ((record host i sender event).exec w = (.ok (), w')
        ∨ ∃ steps, (record host i sender event).exec w = (host.play none steps).exec w') := by
  obtain ⟨w', hgraphs, -, -, -, hexec⟩ := exec_record_atRest host i sender event w
  exact ⟨w', hgraphs, hexec⟩

instance [LastingUnattached kept] (i : Nat) (sender : Value) (event : Event) :
    Keeps kept (record host i sender event) := by
  refine ⟨fun w hw => ?_⟩
  obtain ⟨w', hgraphs, hruns, htrees, hsinks, hexec⟩ := exec_record_atRest host i sender event w
  have hw' : kept w' :=
    LastingUnattached.elsewhere (LastingUnattached.written _ hw) hgraphs hruns htrees hsinks
  obtain hexec | ⟨steps, hexec⟩ := hexec
  · rw [hexec]
    exact hw'
  · rw [hexec]
    exact Keeps.after w' hw'

instance [LastingUnattached kept] (s : SinkRef) (sender : Value) (event : Event) :
    Keeps kept (deliver host s sender event) := by
  unfold deliver
  split <;> infer_instance

end Delivery

/-! ## §2. Trees. -/

section Trees

instance (t : TreeRef) : Keeps kept (treeGraph t) := by
  unfold treeGraph
  refine .bind inferInstance fun tree => ?_
  split <;> infer_instance

instance (g : GraphRef) (id : Value) : Keeps kept (lookUp g id) := by
  unfold lookUp
  infer_instance

instance (t : TreeRef) (v : Value) : Keeps kept (resolveEdge t v) := by
  unfold resolveEdge
  split
  · infer_instance
  · refine .bind inferInstance fun tree => ?_
    split <;> infer_instance

instance (v : Value) : Keeps kept (itemsOfValue v) := by
  unfold itemsOfValue
  split <;> infer_instance

instance (t : TreeRef) (algorithm : Algorithm) : Keeps kept (chosenItems t algorithm) := by
  unfold chosenItems
  infer_instance

instance (t : TreeRef) (item : TreeItem) : Keeps kept (resolveItem t item) := by
  unfold resolveItem
  split
  · infer_instance
  · infer_instance
  · refine .bind inferInstance fun graph => ?_
    split
    · refine .bind inferInstance fun e => ?_
      split <;> infer_instance
    · infer_instance
  · refine .bind inferInstance fun graph => .bind inferInstance fun attributes => ?_
    split <;> infer_instance

instance (t : TreeRef) (items : List TreeItem) : Keeps kept (resolveItems t items) := by
  unfold resolveItems
  infer_instance

instance (g : GraphRef) (act : EdgeView → Run Unit) [∀ e, Keeps kept (act e)] :
    Keeps kept (forEachEdge g act) := by
  unfold forEachEdge
  infer_instance

instance [∀ count, Keeps kept (World.reserveMarks count)] (offered : Option (Builder Step)) :
    Keeps kept (offer offered) := by
  unfold offer
  split
  · infer_instance
  · split <;> infer_instance

section Assignments

/-- What is kept by assignments to trees, and by the making of a tree.  What is assigned
or offered as callable is. -/
class KeepsAssignments (kept : World → Prop) : Prop where
  assign : ∀ {w : World} (t : TreeRef) {a : Assignment (Builder Step)}, kept w →
    a.Sound Builder.Callable → kept (w.assign t a).2
  make : ∀ {w : World} {graph : Option GraphRef} {s : Settings} {offered : Offered (Builder Step)}
    {tree : Tree}, kept w → offered.Sound Builder.Callable →
    SpanningTree.make graph s offered = .ok tree → kept (w.withNewTree tree)

/-- What does not depend on the trees is kept by assignments. -/
theorem KeepsAssignments.of_trees [LastingUnattached kept]
    (h : ∀ {w : World} (trees : Heap Tree), kept w → kept { w with trees }) :
    KeepsAssignments kept where
  assign := fun {w} t {a} hw _ => by
    obtain ⟨tree, -, haccepted⟩ | ⟨-, hsame | hignored⟩ := w.assign_cases t a
    · rw [haccepted]
      exact h _ hw
    · rw [hsame]
      exact hw
    · rw [hignored]
      cases a with
      | flagOn v => exact Keeps.after (x := World.note (.ignoredFlagOn v)) w hw
      | flagOff v => exact Keeps.after (x := World.note (.ignoredFlagOff v)) w hw
      | _ => exact hw
  make := fun hw _ _ => h _ hw

instance [LastingAtRest kept] : KeepsAssignments kept :=
  .of_trees fun _ hw => LastingAtRest.elsewhere hw (.of_graphs_eq rfl rfl) (.of_eq rfl rfl)

variable [KeepsAssignments kept]

instance (t : TreeRef) (v : Value) : Keeps kept (assignFlagOn t v) := by
  refine ⟨fun w hw => ?_⟩
  rw [exec_assignFlagOn]
  exact KeepsAssignments.assign t hw trivial

instance (t : TreeRef) (v : Value) : Keeps kept (assignFlagOff t v) := by
  refine ⟨fun w hw => ?_⟩
  rw [exec_assignFlagOff]
  exact KeepsAssignments.assign t hw trivial

instance (t : TreeRef) (property : TreeProperty) (v : Value) :
    Keeps kept (assignProperty t property v) := by
  refine ⟨fun w hw => ?_⟩
  rw [exec_assignProperty]
  exact KeepsAssignments.assign t hw (property.sound_assignment v)

instance (t : TreeRef) (graph : Option GraphRef) :
    Keeps kept (do World.setTree t { ← World.tree t with graph }) := by
  refine ⟨fun w hw => ?_⟩
  rw [exec_assignGraph]
  exact KeepsAssignments.assign t hw trivial

/-- A builder is assigned as it is offered. -/
instance [LastingUnattached kept] (t : TreeRef) (builder : Option (Builder Step)) : Keeps kept (do
    let offered ← offer builder
    World.setTree t (← Run.ofExcept ((← World.tree t).setBuilder offered))) := by
  refine .bind_of_ok inferInstance fun w offered w' _ hoffered => ⟨fun v hv => ?_⟩
  rw [exec_assignBuilder]
  exact KeepsAssignments.assign t hv (sound_offer hoffered)

end Assignments

variable {host : Host} [Sustained kept host]

instance (e : EdgeView) (name v : Value) : Keeps kept (setOnView host e name v) := by
  unfold setOnView
  infer_instance

instance (t : TreeRef) (e : EdgeView) : Keeps kept (markOn host t e) := by
  unfold markOn
  infer_instance

instance (t : TreeRef) (e : EdgeView) : Keeps kept (markOff host t e) := by
  unfold markOff
  infer_instance

instance (t : TreeRef) : Keeps kept (resetMarks host t) := by
  unfold resetMarks
  refine .bind inferInstance fun tree => ?_
  split <;> infer_instance

instance (t : TreeRef) : Keeps kept (clearMarks host t) := by
  unfold clearMarks
  refine .bind inferInstance fun tree => ?_
  split <;> infer_instance

instance (t : TreeRef) (items : List TreeItem) : Keeps kept (markItems host t items) := by
  induction items with
  | nil =>
    unfold markItems
    infer_instance
  | cons item rest ih =>
    unfold markItems
    refine .bind inferInstance fun found => ?_
    split <;> infer_instance

variable [LastingUnattached kept]

instance (t : TreeRef) (build : Run (List TreeItem)) [Keeps kept build] :
    Keeps kept (computeTree host t build) := by
  unfold computeTree
  refine .bind inferInstance fun tree => ?_
  split <;> infer_instance

instance (t : TreeRef) (kind : BuilderKind) : Keeps kept (answerOf t kind) := by
  unfold answerOf
  split <;> infer_instance

instance (t : TreeRef) (builder : Builder Step) : Keeps kept (callBuilder host t builder) := by
  unfold callBuilder
  infer_instance

instance (t : TreeRef) : Keeps kept (treeItems host t) := by
  unfold treeItems
  refine .bind inferInstance fun tree => ?_
  split <;> infer_instance

instance (t : TreeRef) : Keeps kept (compute host t) := by
  unfold compute
  infer_instance

end Trees

/-! ## §3. Attached sinks. -/

/-- The world with the emitter of a source changed. -/
def World.withEmitter (w : World) (source : SinkRef) (f : Emitter → Emitter) : World :=
  match source with
  | .graph g => { w with
      graphs := w.graphs.set g.index { w.objectAt g with emitter := f (w.objectAt g).emitter } }
  | .generator g => w.withGenerator g fun x => { x with emitter := f x.emitter }
  | .recorder _ | .silent _ => w

/-- Attaching and detaching leaves what the graphs hold as it is. -/
theorem World.keepsGraphs_withEmitter (w : World) (source : SinkRef) (f : Emitter → Emitter) :
    w.KeepsGraphs (w.withEmitter source f) := by
  cases source with
  | graph g =>
    refine ⟨fun x hx => ⟨by simpa [withEmitter, HasGraph, Heap.set, Heap.size] using hx, ?_⟩, rfl⟩
    show ((w.graphs.set g.index _).get x.index).graph = (w.graphs.get x.index).graph
    by_cases hindex : g.index = x.index
    · rw [← hindex, Heap.get_set_self (hindex ▸ hx)]
      rfl
    · rw [Heap.get_set_of_ne hindex]
  | generator g | recorder i | silent i => exact .of_graphs_eq rfl rfl

/-- It moves no generator. -/
theorem World.keepsRuns_withEmitter (w : World) (source : SinkRef) (f : Emitter → Emitter) :
    w.KeepsRuns (w.withEmitter source f) := by
  cases source with
  | generator g =>
    show w.KeepsRuns (w.withGenerator g fun x => { x with emitter := f x.emitter })
    refine keepsRuns_withGenerator ?_ ?_ w g <;> exact fun _ => rfl
  | graph g | recorder i | silent i => exact .of_eq rfl rfl

@[simp] theorem World.trees_withEmitter (w : World) (source : SinkRef) (f : Emitter → Emitter) :
    (w.withEmitter source f).trees = w.trees := by
  cases source <;> rfl

/-- What is kept when sinks are attached and detached.  A source is not attached to
itself. -/
class KeepsAttachments (kept : World → Prop) : Prop where
  attach : ∀ {w : World} {source s : SinkRef}, source ≠ s → kept w →
    kept (w.withEmitter source (·.attach s))
  detach : ∀ {w : World} (source s : SinkRef), kept w → kept (w.withEmitter source (·.detach s))
  detachAll : ∀ {w : World} (source : SinkRef), kept w →
    kept (w.withEmitter source (·.detachAll))

/-- What does not depend on the lists of sinks is. -/
instance [LastingUnassigned kept] : KeepsAttachments kept where
  attach := fun {w source s} _ hw => LastingUnassigned.elsewhere hw
    (w.keepsGraphs_withEmitter source _) (w.keepsRuns_withEmitter source _) (by simp)
  detach := fun {w} source s hw => LastingUnassigned.elsewhere hw
    (w.keepsGraphs_withEmitter source _) (w.keepsRuns_withEmitter source _) (by simp)
  detachAll := fun {w} source hw => LastingUnassigned.elsewhere hw
    (w.keepsGraphs_withEmitter source _) (w.keepsRuns_withEmitter source _) (by simp)

/-! ## §4. Generators. -/

/-- What is kept by the calls to a generator. -/
class KeepsCalls (kept : World → Prop) (hooks : Hooks) (g : GeneratorRef) : Prop where
  begin : Keeps kept (beginRun hooks g)
  pull : Keeps kept (pull hooks g)
  finish : Keeps kept (endRun hooks g)

section Generators

instance (reason : Option Error) : Keeps kept (refuse reason) := by
  unfold refuse
  split <;> infer_instance

/-- What does not depend on generators is kept by the calls if it is kept by the hooks. -/
instance [∀ g f, Keeps kept (World.modifyGenerator g f)] [∀ entry, Keeps kept (World.note entry)]
    {hooks : Hooks} [Keeps kept hooks.opening] [Keeps kept hooks.step]
    [Keeps kept hooks.closing] (g : GeneratorRef) : KeepsCalls kept hooks g where
  begin := by
    unfold beginRun
    infer_instance
  pull := by
    unfold EvolvingGraph.pull
    infer_instance
  finish := by
    unfold endRun
    infer_instance

variable {hooks : Hooks} {g : GeneratorRef}

section Runs

variable [KeepsCalls kept hooks g]

instance : Keeps kept (beginRun hooks g) := KeepsCalls.begin

instance : Keeps kept (pull hooks g) := KeepsCalls.pull

instance : Keeps kept (endRun hooks g) := KeepsCalls.finish

instance (limit : Limit) (fuel calls : Nat) :
    Keeps kept (pullUpTo hooks g limit fuel calls) := by
  induction fuel generalizing calls with
  | zero =>
    unfold pullUpTo
    infer_instance
  | succ fuel ih =>
    unfold pullUpTo
    infer_instance

instance (patience : Nat) (limit : Limit) :
    Keeps kept (completeRun hooks patience g limit) := by
  unfold completeRun
  infer_instance

end Runs

variable [LastingUnattached kept]

instance [KeepsAttachments kept] (g : GeneratorRef) (sink : Option SinkRef) (x : Run α)
    [Keeps kept x] : Keeps kept (attachFor g sink x) := by
  unfold attachFor
  split
  · infer_instance
  · next s =>
    have hdetach : Keeps kept
        (World.modifyGenerator g fun x => { x with emitter := x.emitter.detach s }) :=
      ⟨fun w hw => KeepsAttachments.detach (.generator g) s hw⟩
    by_cases hself : s = .generator g
    · simp only [if_pos hself]
      infer_instance
    · have hattach : Keeps kept
          (World.modifyGenerator g fun x => { x with emitter := x.emitter.attach s }) :=
        ⟨fun w hw => KeepsAttachments.attach (Ne.symm hself) hw⟩
      infer_instance

instance [KeepsAttachments kept] [KeepsCalls kept hooks g] (patience : Nat)
    (sink : Option SinkRef) (limit : Limit) :
    Keeps kept (generateInto hooks patience g sink limit) := by
  unfold generateInto
  infer_instance

variable {host : Host} [Sustained kept host]

instance (g : GeneratorRef) : Keeps kept (playEntry host g) := by
  unfold playEntry
  refine .bind inferInstance fun x => ?_
  split
  · infer_instance
  · have : Keeps kept (World.modifyGenerator g fun x => { x with position := x.position + 1 }) := by
      refine keeps_modifyGenerator ?_ ?_ ?_ g <;> exact fun _ => rfl
    infer_instance

instance (g : GeneratorRef) : Keeps kept (scriptHooks host g).opening := by
  have : Keeps kept (World.modifyGenerator g fun x => { x with position := 0 }) := by
    refine keeps_modifyGenerator ?_ ?_ ?_ g <;> exact fun _ => rfl
  unfold scriptHooks
  infer_instance

instance (g : GeneratorRef) : Keeps kept (scriptHooks host g).step := by
  unfold scriptHooks
  infer_instance

instance (g : GeneratorRef) : Keeps kept (scriptHooks host g).closing := by
  unfold scriptHooks
  infer_instance

end Generators

/-! ## §5. Iterators. -/

section Iterators

instance (graph : Graph) (id : Value) : Keeps kept (everyEdge graph id) := by
  unfold everyEdge
  infer_instance

instance (t : TreeRef) (graph : Graph) (id : Value) : Keeps kept (markedEdge t graph id) := by
  unfold markedEdge
  infer_instance

instance (g : GraphRef) (counts : Graph → Value → Run Bool)
    [∀ graph id, Keeps kept (counts graph id)] (ids : List Identifier) :
    Keeps kept (pullListing g counts ids) := by
  induction ids with
  | nil =>
    unfold pullListing
    infer_instance
  | cons id rest ih =>
    unfold pullListing
    infer_instance

variable [LastingUnattached kept] {hooksOf : GeneratorRef → Hooks}
  [∀ g, KeepsCalls kept (hooksOf g) g]

instance (g : GeneratorRef) (limit : Limit) (calls : Nat) :
    Keeps kept (pullStep (hooksOf g) g limit calls) := by
  unfold pullStep
  infer_instance

instance (g : GeneratorRef) (limit : Limit) (calls : Nat) :
    Keeps kept (continueRun (hooksOf g) g limit calls) := by
  unfold continueRun
  refine .bind inferInstance fun result => ?_
  split <;> infer_instance

instance (source : CursorSource) (state : CursorState) :
    Keeps kept (pullFrom hooksOf source state) := by
  unfold pullFrom
  split
  case h_3 =>
    refine .bind inferInstance fun tree => ?_
    split <;> infer_instance
  all_goals infer_instance

instance (c : CursorRef) (x : Run Pulled) [Keeps kept x] : Keeps kept (whileBusy c x) := by
  unfold whileBusy
  refine .bind inferInstance fun _ => .bind inferInstance fun result => ?_
  split <;> infer_instance

instance (c : CursorRef) : Keeps kept (nextItem hooksOf c) := by
  unfold nextItem
  refine .bind inferInstance fun cursor => ?_
  split <;> infer_instance

instance (c : CursorRef) (fuel : Nat) : Keeps kept (drainItems hooksOf c fuel) := by
  induction fuel with
  | zero =>
    unfold drainItems
    infer_instance
  | succ fuel ih =>
    unfold drainItems
    refine .bind inferInstance fun item => ?_
    split <;> infer_instance

instance (c : CursorRef) : Keeps kept (closeCursor hooksOf c) := by
  unfold closeCursor
  refine .bind inferInstance fun cursor => ?_
  split <;> infer_instance

end Iterators
end EvolvingGraph
