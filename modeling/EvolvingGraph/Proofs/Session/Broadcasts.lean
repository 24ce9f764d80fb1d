/-
  EvolvingGraph.Proofs.Session.Broadcasts
  ───────────────────────────────────────
  **WHO IS TOLD OF THE EVENTS OF A SESSION.**

  Sinks are attached and detached by the steps of a session, by the steps that a recorder
  plays when it is told of an event, by the scripts of generators, and for the time of a
  run.  Whatever a session does, there is a history of it: what was done to the lists of
  sinks, and which events were emitted meanwhile, however deep in one another.

  So it is known at any time which sinks are attached to a source, each of them once, and
  these are told of its next event.

  Main statements:
    * `recounted_hostOfDepth` — what the host of a session does has a history;
    * `events_reach_each_sink_once` — who is told of which events.
-/
import Mathlib.Tactic.Choose
import EvolvingGraph.Proofs.Delivery.Broadcast
import EvolvingGraph.Proofs.Session.Arrival

namespace EvolvingGraph

open Session Run

/-! ## §1. There is a history of every session. -/

/-- There is a history that leads from one world to another. -/
def Recounted (w₀ w : World) : Prop := ∃ hs, Proceeds w₀ hs w

namespace Recounted

variable {w₀ : World}

instance : LastingUnattached (Recounted w₀) where
  elsewhere := fun ⟨_, before⟩ graphs _ _ sinks => ⟨_, before.elsewhere graphs sinks⟩
  written := fun receipt ⟨_, before⟩ => ⟨_, before.written receipt⟩

instance : KeepsAssignments (Recounted w₀) :=
  .of_trees fun _ ⟨_, before⟩ => ⟨_, before.elsewhere (.of_graphs_eq rfl rfl) (.of_eq rfl rfl)⟩

/-- To rewire what is no source changes nothing. -/
theorem withEmitter {w : World} {source : SinkRef} {r : Rewiring} (hr : r ≠ .attach source)
    (hw : Recounted w₀ w) : Recounted w₀ (w.withEmitter source r.emitter) := by
  obtain ⟨hs, before⟩ := hw
  by_cases hsource : w.HasSource source
  · exact ⟨_, before.rewired hsource hr⟩
  · rw [World.withEmitter_of_not_hasSource hsource]
    exact ⟨hs, before⟩

instance : KeepsAttachments (Recounted w₀) where
  attach := fun {_ _ s} hs => withEmitter (r := .attach s) fun heq =>
    hs (Rewiring.attach.inj heq).symm
  detach := fun _ s => withEmitter (r := .detach s) nofun
  detachAll := fun _ => withEmitter (r := .detachAll) nofun

/-- What a generator is apart from its sinks does not matter here. -/
theorem keeps_modifyGenerator {f : Generator → Generator}
    (hsinks : ∀ x, (f x).emitter.sinks = x.emitter.sinks) (g : GeneratorRef) :
    Keeps (Recounted w₀) (World.modifyGenerator g f) :=
  ⟨fun w ⟨_, before⟩ => ⟨_, before.elsewhere (.of_graphs_eq rfl rfl)
    (World.keepsSinks_withGenerator hsinks w g)⟩⟩

instance (entry : LogEntry) : Keeps (Recounted w₀) (World.note entry) :=
  ⟨fun _ ⟨_, before⟩ => ⟨_, before.elsewhere (.of_graphs_eq rfl rfl) (.of_eq rfl rfl)⟩⟩

theorem keepsCalls {hooks : Hooks} [Keeps (Recounted w₀) hooks.opening]
    [Keeps (Recounted w₀) hooks.step] [Keeps (Recounted w₀) hooks.closing] (g : GeneratorRef) :
    KeepsCalls (Recounted w₀) hooks g := by
  have hphase : ∀ p, Keeps (Recounted w₀)
      (World.modifyGenerator g fun x => { x with phase := p }) := by
    refine fun _ => keeps_modifyGenerator ?_ g
    exact fun _ => rfl
  have hcount : ∀ n : Generator → Nat, Keeps (Recounted w₀)
      (World.modifyGenerator g fun x => { x with stepCount := n x }) := by
    refine fun _ => keeps_modifyGenerator ?_ g
    exact fun _ => rfl
  have hreset := hcount fun _ => 0
  have hcounted := hcount fun x => x.stepCount + 1
  refine ⟨?_, ?_, ?_⟩
  · unfold beginRun
    infer_instance
  · unfold pull
    infer_instance
  · unfold endRun
    infer_instance

theorem keepsCalls_hooksOf {host : Host} [Sustained (Recounted w₀) host] (g : GeneratorRef) :
    KeepsCalls (Recounted w₀) (hooksOf host g) g := by
  unfold hooksOf
  exact keepsCalls g

end Recounted

namespace Proceeds

variable {host : Host} {w v : World} {hs : List Happening} {x : Run Unit} {b : Broadcast}

/-- If what sinks do has a history, a broadcast goes on with it. -/
theorem prompted
    (hnotify : ∀ w₀ s sender event, Keeps (Recounted w₀) (host.notify s sender event))
    (before : Proceeds w hs v) (hprompts : v.Prompts host x b) :
    ∃ inside, Proceeds w (hs ++ .broadcast b :: inside) b.finish := by
  obtain rfl := hprompts.host_eq
  have htold : ∀ d ∈ b.deliveries, ∃ inside, Proceeds d.start inside d.finish := by
    intro d hd
    have hafter := (hnotify d.start d.sink b.emitter.id b.event).after d.start ⟨[], .start _⟩
    rw [exec_of_mem_deliveries hd] at hafter
    exact hafter
  choose! inside hinside using htold
  exact ⟨_, before.broadcast hprompts hinside⟩

end Proceeds

namespace Recounted

variable {host : Host}
  (hnotify : ∀ w₀ s sender event, Keeps (Recounted w₀) (host.notify s sender event))
include hnotify

theorem keeps_commit (w₀ : World) (g : GraphRef) (c : Change) :
    Keeps (Recounted w₀) (commit host g c) := by
  refine ⟨fun v ⟨hs, before⟩ => ?_⟩
  by_cases htakes : ∃ graph event, (v.objectAt g).graph.Takes c graph event
  · obtain ⟨graph, event, takes⟩ := htakes
    have hprompts : v.Prompts host (commit host g c) _ := .change takes
    rw [hprompts.exec_eq]
    obtain ⟨inside, hafter⟩ := before.prompted hnotify hprompts
    exact ⟨_, hafter⟩
  · have hsilent : ∀ graph event, ¬ (v.objectAt g).graph.Takes c graph event :=
      fun graph event takes => htakes ⟨graph, event, takes⟩
    have hafter := before.unreported hsilent
    rw [exec_commit]
    rcases happly : (v.objectAt g).graph.apply c with ⟨graph, e | _ | event⟩
    · rw [happly] at hafter
      exact ⟨_, hafter⟩
    · rw [happly] at hafter
      exact ⟨_, hafter⟩
    · exact absurd (Graph.apply_eq_some_iff.1 happly) (hsilent graph event)

theorem keeps_announce (w₀ : World) (g : GeneratorRef) (c : Change) (attributes : Attributes)
    (old : Value) : Keeps (Recounted w₀) (announce host g c attributes old) := by
  have hone : ∀ d, Keeps (Recounted w₀) (announce host g d .empty old) := by
    refine fun d => ⟨fun v ⟨hs, before⟩ => ?_⟩
    cases hannounced : d.announcement? old with
    | none =>
      rw [exec_announce_empty, hannounced]
      exact ⟨hs, before⟩
    | some event =>
      have hprompts : v.Prompts host (announce host g d .empty old) _ :=
        .announcement g hannounced
      rw [hprompts.exec_eq]
      obtain ⟨inside, hafter⟩ := before.prompted hnotify hprompts
      exact ⟨_, hafter⟩
  refine ⟨fun v hv => ?_⟩
  rw [exec_announce]
  split
  · exact Keeps.after v hv
  · exact hv

end Recounted

/-- **Whatever the host of a session does has a history, however deep its steps are
nested.** -/
theorem recounted_hostOfDepth (depth : Nat) (w₀ : World) :
    Sustained (Recounted w₀) (hostOfDepth depth) := by
  refine sustained_hostOfDepth_of_emissions Recounted (fun _ => Recounted.keeps_commit)
    (fun _ => Recounted.keeps_announce) (fun host hsustained w₀ g => ?_) depth w₀
  have := hsustained w₀
  exact Recounted.keepsCalls_hooksOf g

theorem recounted_afterSteps (depth : Nat) (steps : List Step) (w : World) :
    Recounted w (afterSteps (hostOfDepth depth) steps w) := by
  have := recounted_hostOfDepth depth w
  have (g : GeneratorRef) : KeepsCalls (Recounted w) (hooksOf (hostOfDepth depth) g) g :=
    Recounted.keepsCalls_hooksOf g
  exact keeps_afterSteps steps ⟨_, .start w⟩

/-! ## §2. A recorder that rewires the graph. -/

namespace Rewired

/-- A graph, a recorder that reacts to a new node, and two more recorders, of which one
is attached behind the first one. -/
def setup (reaction : List Step) : List Step :=
  [.newGraph "g" (.value (.str "G")) false, .newRecorder "r" [⟨.nodeAdded, reaction⟩],
    .newRecorder "s" [], .newRecorder "t" [], .sinks (some "g") (.add "r"),
    .sinks (some "g") (.add "s")]

/-- The recorder detaches the one behind it, attaches the other one, and makes the graph
emit one more event. -/
def reaction : List Step :=
  [.sinks (some "g") (.remove "s"), .sinks (some "g") (.add "t"),
    Arrival.asks (.setAttribute .node (.value (.int 1)) (.value (.str "k")) (.value (.int 1)) none)]

/-- The world before the node is added. -/
def ready (reaction : List Step) : World :=
  afterSteps (hostOfDepth 4) (setup reaction) World.initial

/-- The node has been added, and the sinks of the graph are told. -/
def newNode (reaction : List Step) : Broadcast :=
  ⟨hostOfDepth 4, .graph ⟨0⟩, .nodeAdded (.int 1), (ready reaction).put ⟨0⟩ Arrival.withNode⟩

theorem prompts (reaction : List Step) : (ready reaction).Prompts (hostOfDepth 4)
    (commit (hostOfDepth 4) ⟨0⟩ (.addNode (.int 1))) (newNode reaction) :=
  .change Arrival.takes_withNode

end Rewired

/-! ## §3. Who is told of which events. -/

/-- At the beginning of a session nothing is attached. -/
theorem wellAttached_initial : WellAttached World.initial.sinksAt := by
  have hnone : ∀ source, World.initial.sinksAt source = [] := by
    intro source
    cases source <;> rfl
  refine ⟨fun source => ?_, fun source => ?_⟩ <;> rw [hnone]
  · exact List.nodup_nil
  · exact List.not_mem_nil

/-- The request to attach or detach sinks. -/
def Rewiring.request (source : SinkRef) : Rewiring → Run Unit
  | attach s => attachSink (.sink source) s
  | detach s => modifyEmitter (.sink source) (·.detach s)
  | detachAll => modifyEmitter (.sink source) (·.detachAll)

/-- A request is granted, unless a source is to be attached to itself. -/
theorem Rewiring.exec_request {w : World} {source : SinkRef} (h : w.HasSource source)
    (r : Rewiring) :
    (r.request source).exec w = if r = .attach source then (.error .ownSink, w)
      else (.ok (), w.withEmitter source r.emitter) := by
  have hmodify : ∀ f : Emitter → Emitter,
      (modifyEmitter (.sink source) f).exec w = (.ok (), w.withEmitter source f) := by
    intro f
    cases source with
    | graph g | generator g => rfl
    | recorder i | silent i => exact h.elim
  cases r with
  | attach s =>
    show (attachSink (.sink source) s).exec w = _
    unfold attachSink
    by_cases hself : source = s
    · simp [hself]
    · rw [if_neg fun heq => hself (Rewiring.attach.inj heq).symm, ← hmodify]
      simp only [if_neg hself]
      rfl
  | detach s =>
    rw [if_neg nofun]
    exact hmodify (·.detach s)
  | detachAll =>
    rw [if_neg nofun]
    exact hmodify (·.detachAll)

/-- How a history goes on. -/
structure GoesOn (w : World) (hs : List Happening) (v : World) : Prop where
  /-- A source is not attached to itself.  Other requests are granted. -/
  requests : ∀ source r, v.HasSource source →
    if r = .attach source then (r.request source).exec v = (.error .ownSink, v)
    else ∃ v', (r.request source).exec v = (.ok (), v') ∧ Proceeds w (hs ++ [.rewired source r]) v'
  /-- What is emitted next goes to the sinks as they are now, whatever these do: the
  emission ends as the broadcast says, also if this is a failure. -/
  emissions : ∀ {host x b}, v.Prompts host x b →
    x.exec v = (b.result, b.finish) ∧ b.audience = v.sinksAt b.source ∧ b.Fair
  /-- What the sinks of a session do stands behind the broadcast. -/
  nested : ∀ {depth x b}, v.Prompts (hostOfDepth depth) x b →
    ∃ inside, Proceeds w (hs ++ .broadcast b :: inside) b.finish

theorem Proceeds.goesOn {w v : World} {hs : List Happening} (h : Proceeds w hs v)
    (hw : WellAttached w.sinksAt) : GoesOn w hs v where
  requests := by
    intro source r hsource
    rw [Rewiring.exec_request hsource]
    split
    · rfl
    · next hr => exact ⟨_, rfl, h.rewired hsource hr⟩
  emissions := by
    intro host x b hprompts
    have hattached := hw.sinksAfter h.tallies.fitting
    rw [← h.tallies.sinks, ← hprompts.sinksAt_start] at hattached
    exact ⟨hprompts.exec_eq, congrFun hprompts.sinksAt_start _, Broadcast.fair hattached⟩
  nested := by
    intro depth x b hprompts
    exact h.prompted (fun w₀ => (recounted_hostOfDepth depth w₀).notify) hprompts

/-- **Each event reaches each attached sink once, whatever the sinks do.**  Every session
has a history, which says what the lists of sinks are at any time: nothing is attached
twice, or to itself.  Those that are attached when an emission starts are told, in order
of attachment, up to the first one that fails; its failure is that of the operation. -/
theorem events_reach_each_sink_once {w : World} (hw : WellAttached w.sinksAt) :
    (∀ depth steps, ∃ hs, Proceeds w hs (afterSteps (hostOfDepth depth) steps w))
    ∧ ∀ {hs : List Happening} {v : World}, Proceeds w hs v →
      DeliversFairly w hs v ∧ GoesOn w hs v :=
  ⟨fun depth steps => recounted_afterSteps depth steps w,
    fun history => ⟨history.deliversFairly hw, history.goesOn hw⟩⟩

open Rewired

/-- A recorder that is told of a node detaches the one behind it, which is told of the
node all the same, attaches another one, which is not, and sets an attribute: of this the
first one and the new one are told.  If the recorder fails, the one behind it is told of
nothing. -/
theorem events_reach_each_sink_once_rewired :
    WellAttached World.initial.sinksAt
    ∧ (∃ hs, Proceeds World.initial hs (ready reaction)
      ∧ DeliversFairly World.initial hs (ready reaction)
      ∧ (ready reaction).Prompts (hostOfDepth 4) (commit (hostOfDepth 4) ⟨0⟩ (.addNode (.int 1)))
        (newNode reaction)
      ∧ (newNode reaction).Fair
      ∧ ∃ inside, Proceeds World.initial (hs ++ .broadcast (newNode reaction) :: inside)
        (newNode reaction).finish)
    ∧ (newNode reaction).audience = [.recorder 0, .recorder 1]
    ∧ Arrival.heard (newNode reaction).finish = [("r", .nodeAdded), ("r", .attributeChanged .node),
      ("t", .attributeChanged .node), ("s", .nodeAdded)]
    ∧ (newNode reaction).finish.sinksAt (.graph ⟨0⟩) = [.recorder 0, .recorder 2]
    ∧ (newNode [.fail "no"]).Fair
    ∧ (newNode [.fail "no"]).audience = [.recorder 0, .recorder 1]
    ∧ (newNode [.fail "no"]).deliveries.map Delivery.sink = [.recorder 0]
    ∧ (newNode [.fail "no"]).result = .error (.scripted "no") := by
  obtain ⟨hhistory, hfacts⟩ := events_reach_each_sink_once wellAttached_initial
  obtain ⟨hs, history⟩ := hhistory 4 (setup reaction)
  obtain ⟨hs', history'⟩ := hhistory 4 (setup [.fail "no"])
  have hnode := (hfacts history).2.emissions (prompts reaction)
  have hnested := (hfacts history).2.nested (prompts reaction)
  have hfails := (hfacts history').2.emissions (prompts [.fail "no"])
  refine ⟨wellAttached_initial, ⟨hs, history, (hfacts history).1, prompts reaction, hnode.2.2,
    hnested⟩, ?_, ?_, ?_, hfails.2.2, ?_, ?_, rfl⟩
  · decide +kernel
  · decide +kernel
  · decide +kernel
  · decide +kernel
  · decide +kernel

end EvolvingGraph
