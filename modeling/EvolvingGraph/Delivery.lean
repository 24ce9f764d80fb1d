/-
  EvolvingGraph.Delivery
  ──────────────────────
  **EVENTS ON THEIR WAY TO THE SINKS, AND CHANGES THAT CAUSE THEM.**

  An event is handed to each sink that is attached when the emission starts, in
  the order of attachment, one after the other; a sink that fails stops the
  emission.  A change to a graph is made first and reported afterwards, and a
  request of several changes makes and reports them one by one.

  What a sink does with an event is left to the `Host`: it may change the same
  graph again, so everything here is stated for any host, and the actual one is
  put together where sinks and scripts are known.

  Main statements:
    * `attach_mem`, `detach_not_mem` — what attaching and detaching do;
    * `nodup_attach` — no sink is attached twice.
-/
import EvolvingGraph.World

namespace EvolvingGraph

/-- What happens outside of an operation while it runs. -/
structure Host where
  /-- Hand an event of the emitter with the given id to a sink. -/
  notify : SinkRef → (sender : Value) → Event → Run Unit
  /-- Play steps on behalf of an object, if there is one. -/
  play : Option Object → List Step → Run Unit
  /-- The number of steps that a run without a bound is given. -/
  patience : Nat

/-! ## §1. Attached sinks. -/

namespace Emitter

/-- Attach a sink, at the end, unless it is attached. -/
def attach (e : Emitter) (s : SinkRef) : Emitter :=
  if s ∈ e.sinks then e else { e with sinks := e.sinks ++ [s] }

/-- Detach a sink. -/
def detach (e : Emitter) (s : SinkRef) : Emitter := { e with sinks := e.sinks.erase s }

/-- Detach all sinks. -/
def detachAll (e : Emitter) : Emitter := { e with sinks := [] }

theorem attach_mem (e : Emitter) (s : SinkRef) : s ∈ (e.attach s).sinks := by
  unfold attach
  split <;> simp_all

theorem nodup_attach {e : Emitter} (h : e.sinks.Nodup) (s : SinkRef) :
    (e.attach s).sinks.Nodup := by
  unfold attach
  split
  · exact h
  · next hs =>
    rw [List.nodup_append]
    refine ⟨h, by simp, fun a ha b hb hab => hs ?_⟩
    rw [← List.mem_singleton.1 hb, ← hab]
    exact ha

theorem detach_not_mem {e : Emitter} (h : e.sinks.Nodup) (s : SinkRef) :
    s ∉ (e.detach s).sinks := h.not_mem_erase

end Emitter

/-! ## §2. Emission. -/

/-- Hand an event to the sinks that are attached now. -/
def emit (host : Host) (emitter : Emitter) (event : Event) : Run Unit :=
  emitter.sinks.forM fun s => host.notify s emitter.id event

/-- Make a change to a graph and report it. -/
def commit (host : Host) (g : GraphRef) (change : Change) : Run Unit := do
  let object ← World.graphObject g
  let (graph, outcome) := object.graph.apply change
  World.setGraph g graph
  match ← Run.ofExcept outcome with
  | some event => emit host object.emitter event
  | none => pure ()

/-- Make a request to a graph, with attributes for what it adds. -/
def perform (host : Host) (g : GraphRef) (change : Change) (attributes : Attributes) :
    Run Unit := do
  if !change.accepts attributes then throw .badArgument
  let graph ← World.graph g
  let changes ← Run.ofExcept (graph.plan change attributes)
  changes.forM (commit host g)

/-- Follow an event of another emitter. -/
def follow (host : Host) (g : GraphRef) (event : Event) : Run Unit :=
  perform host g event.asChange .empty

/-! ## §3. Announcements. -/

/-- Announce a change with attributes on behalf of a generator: nothing is
changed here, only events are sent. -/
def announce (host : Host) (g : GeneratorRef) (change : Change) (attributes : Attributes)
    (old : Value) : Run Unit := do
  if !change.accepts attributes then throw .badArgument
  (change :: change.settings attributes).forM fun c => do
    let emitter := (← World.generator g).emitter
    match c.announcement? old with
    | some event => emit host emitter event
    | none => throw .noSuchOperation

/-! ## §4. What sinks do with events. -/

/-- The reactions without the first one to a kind of event, and that one. -/
def takeReaction (kind : EventKind) :
    List (Reaction Step) → Option (Reaction Step) × List (Reaction Step)
  | [] => (none, [])
  | r :: rest =>
    if r.event = kind then (some r, rest)
    else
      let (found, others) := takeReaction kind rest
      (found, r :: others)

/-- Write an event down, and react to it. -/
def record (host : Host) (index : Nat) (sender : Value) (event : Event) : Run Unit := do
  let w ← get
  let recorder := w.recorders.get index
  let (reaction, others) := takeReaction event.kind recorder.reactions
  set { w with
    received := w.received ++ [Receipt.mk recorder.label sender event]
    recorders := w.recorders.set index { recorder with reactions := others } }
  match reaction with
  | some r => host.play none r.steps
  | none => pure ()

/-- What a sink does with an event: a graph follows it, a recorder writes it down. -/
def deliver (host : Host) (s : SinkRef) (sender : Value) (event : Event) : Run Unit :=
  match s with
  | .graph g => follow host g event
  | .recorder index => record host index sender event
  | .silent _ => pure ()
  | .generator _ => throw .noSuchOperation

end EvolvingGraph
