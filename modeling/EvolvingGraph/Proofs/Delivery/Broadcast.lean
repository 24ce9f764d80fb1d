/-
  EvolvingGraph.Proofs.Delivery.Broadcast
  ───────────────────────────────────────
  **AN EVENT REACHES EACH ATTACHED SINK ONCE.**

  A broadcast is the emission of one event by a source, from some world on.  The list of
  sinks is looked at once, when it starts.  What a sink does to this list when it is
  told — it may detach those behind it, attach others, or make the source emit one more
  event — makes a difference to later broadcasts only, also to those that start before
  this one has come to its end.

  What happens between sources and sinks is taken down in the order in which it starts,
  so that what is done while a sink is told stands behind the broadcast.  The lists of
  sinks can be read off from this alone (`sinksAfter`), and so can be said what has to be
  told to whom.

  Main statements:
    * `reaches_deliveries`, `chained_deliveries` — what an emission does, call by call;
    * `Broadcast.fair` — each sink is told once, up to the first that fails;
    * `Prompts.exec_eq` — changes and announcements are broadcasts;
    * `Proceeds.tallies` — the lists of sinks are what attaching and detaching made them;
    * `Proceeds.deliversFairly` — what is true of all that happens.
-/
import Mathlib.Logic.Function.Basic
import EvolvingGraph.Proofs.Delivery.Sustaining
import EvolvingGraph.Proofs.Generation.Relaying

namespace EvolvingGraph

/-! ## §1. Sources and their sinks. -/

/-- No sink is attached twice to a source, and no source is attached to itself. -/
structure WellAttached (sinks : SinkRef → List SinkRef) : Prop where
  once : ∀ source, (sinks source).Nodup
  others : ∀ source, source ∉ sinks source

namespace World

/-- A source that is there. -/
def HasSource (w : World) : SinkRef → Prop
  | .graph g => w.HasGraph g
  | .generator g => w.HasGenerator g
  | .recorder _ | .silent _ => False

variable {w : World} {source s : SinkRef}

theorem emitterAt_withEmitter_self (h : w.HasSource source) (f : Emitter → Emitter) :
    (w.withEmitter source f).emitterAt source = f (w.emitterAt source) := by
  cases source with
  | graph g => exact congrArg GraphObject.emitter (Heap.get_set_self h _)
  | generator g => exact congrArg Generator.emitter (generatorAt_withGenerator h _)
  | recorder i | silent i => exact h.elim

theorem emitterAt_withEmitter_of_ne (h : source ≠ s) (f : Emitter → Emitter) :
    (w.withEmitter source f).emitterAt s = w.emitterAt s := by
  cases source with
  | recorder i | silent i => rfl
  | graph g =>
    cases s with
    | graph g' =>
      have hne : g ≠ g' := fun hg => h (congrArg SinkRef.graph hg)
      exact congrArg GraphObject.emitter (Heap.get_set_of_ne (GraphRef.index_ne hne) _)
    | generator g' | recorder i | silent i => rfl
  | generator g =>
    cases s with
    | generator g' =>
      have hne : g ≠ g' := fun hg => h (congrArg SinkRef.generator hg)
      exact congrArg Generator.emitter (generatorAt_withGenerator_of_ne hne _)
    | graph g' | recorder i | silent i => rfl

theorem withEmitter_of_not_hasSource (h : ¬ w.HasSource source) (f : Emitter → Emitter) :
    w.withEmitter source f = w := by
  cases source with
  | graph g =>
    show ({ w with graphs := w.graphs.set g.index _ } : World) = w
    rw [Heap.set_of_size_le (Nat.not_lt.1 h)]
  | generator g =>
    exact withGenerator_of_not_hasGenerator h fun x => { x with emitter := f x.emitter }
  | recorder i | silent i => rfl

theorem sinksAt_withEmitter (h : w.HasSource source) (f : Emitter → Emitter) :
    (w.withEmitter source f).sinksAt
      = Function.update w.sinksAt source (f (w.emitterAt source)).sinks := by
  funext s
  unfold sinksAt
  by_cases hs : source = s
  · rw [← hs, emitterAt_withEmitter_self h, Function.update_self]
  · rw [emitterAt_withEmitter_of_ne hs, Function.update_of_ne (Ne.symm hs)]

@[simp] theorem received_withEmitter (w : World) (source : SinkRef) (f : Emitter → Emitter) :
    (w.withEmitter source f).received = w.received := by
  cases source <;> rfl

/-- A change of a graph leaves the emitters alone. -/
theorem emitterAt_put (w : World) (g : GraphRef) (graph : Graph) (s : SinkRef) :
    (w.put g graph).emitterAt s = w.emitterAt s := by
  cases s with
  | graph g' =>
    show ((w.put g graph).objectAt g').emitter = (w.objectAt g').emitter
    by_cases hg : w.HasGraph g
    · by_cases h : g = g'
      · rw [← h, objectAt_put_self hg]
      · rw [objectAt_put_of_ne h]
    · -- there is no such graph, so nothing is put anywhere
      rw [put, Heap.set_of_size_le (Nat.not_lt.1 hg)]
  | generator g' | recorder i | silent i => rfl

theorem sinksAt_put (w : World) (g : GraphRef) (graph : Graph) :
    (w.put g graph).sinksAt = w.sinksAt :=
  funext fun s => congrArg Emitter.sinks (emitterAt_put w g graph s)

end World

/-! ## §2. Deliveries. -/

/-- A sink has been told of an event: the world before, what came of it, and the world
afterwards. -/
structure Delivery where
  sink : SinkRef
  start : World
  result : Except Error Unit
  finish : World

/-- Sinks are told of an event, one after the other, until one fails. -/
def deliveries (host : Host) (sender : Value) (event : Event) : List SinkRef → World →
    List Delivery
  | [], _ => []
  | s :: rest, w =>
    match (host.notify s sender event).exec w with
    | (.ok (), v) => ⟨s, w, .ok (), v⟩ :: deliveries host sender event rest v
    | (.error e, v) => [⟨s, w, .error e, v⟩]

/-- Deliveries lead from one world to another, with nothing in between. -/
def Chained : World → List Delivery → World → Prop
  | w, [], w' => w = w'
  | w, d :: ds, w' => d.start = w ∧ Chained d.finish ds w'

/-- How sinks have been reached: all of them, in order; or those up to one that has
failed, whose failure is the result. -/
inductive Reaches (sinks : List SinkRef) : List Delivery → Except Error Unit → Prop where
  | all {ds : List Delivery} (told : ds.map Delivery.sink = sinks)
      (fine : ∀ d ∈ ds, d.result = .ok ()) : Reaches sinks ds (.ok ())
  | upTo {ds : List Delivery} {last : Delivery} {missed : List SinkRef} {e : Error}
      (told : ds.map Delivery.sink ++ last.sink :: missed = sinks)
      (fine : ∀ d ∈ ds, d.result = .ok ()) (failed : last.result = .error e) :
      Reaches sinks (ds ++ [last]) (.error e)

theorem Reaches.cons {sinks : List SinkRef} {d : Delivery} {ds : List Delivery}
    {result : Except Error Unit} (hd : d.result = .ok ()) (h : Reaches sinks ds result) :
    Reaches (d.sink :: sinks) (d :: ds) result := by
  cases h with
  | all told fine =>
    exact .all (congrArg (d.sink :: ·) told) (List.forall_mem_cons.2 ⟨hd, fine⟩)
  | @upTo ds last missed e told fine failed =>
    rw [← List.cons_append]
    exact .upTo (congrArg (d.sink :: ·) told) (List.forall_mem_cons.2 ⟨hd, fine⟩) failed

section Deliveries

variable {host : Host} {sender : Value} {event : Event}

/-- A delivery is a call of the sink. -/
theorem exec_of_mem_deliveries {sinks : List SinkRef} {w : World} {d : Delivery}
    (hd : d ∈ deliveries host sender event sinks w) :
    (host.notify d.sink sender event).exec d.start = (d.result, d.finish) := by
  induction sinks generalizing w with
  | nil => cases hd
  | cons s rest ih =>
    unfold deliveries at hd
    rcases hexec : (host.notify s sender event).exec w with ⟨e | _, v⟩ <;> rw [hexec] at hd
    · rw [List.mem_singleton.1 hd]
      exact hexec
    · obtain rfl | hd := List.mem_cons.1 hd
      · exact hexec
      · exact ih hd

/-- **An emission is its deliveries**, with nothing else between them. -/
theorem chained_deliveries (sinks : List SinkRef) (w : World) :
    Chained w (deliveries host sender event sinks w)
      ((sinks.forM fun s => host.notify s sender event).exec w).2 := by
  induction sinks generalizing w with
  | nil => exact rfl
  | cons s rest ih =>
    rw [Run.exec_forM_cons, deliveries]
    rcases hexec : (host.notify s sender event).exec w with ⟨e | _, v⟩
    · exact ⟨rfl, rfl⟩
    · exact ⟨rfl, ih v⟩

/-- **The sinks are reached in order, up to the first that fails.** -/
theorem reaches_deliveries (sinks : List SinkRef) (w : World) :
    Reaches sinks (deliveries host sender event sinks w)
      ((sinks.forM fun s => host.notify s sender event).exec w).1 := by
  induction sinks generalizing w with
  | nil => exact .all rfl (List.forall_mem_nil _)
  | cons s rest ih =>
    rw [Run.exec_forM_cons, deliveries]
    rcases hexec : (host.notify s sender event).exec w with ⟨e | _, v⟩
    · exact @Reaches.upTo _ [] ⟨s, w, .error e, v⟩ rest e rfl (List.forall_mem_nil _) rfl
    · exact Reaches.cons (d := ⟨s, w, .ok (), v⟩) rfl (ih v)

end Deliveries

/-! ## §3. Broadcasts. -/

/-- A source emits an event, from a world on. -/
structure Broadcast where
  host : Host
  source : SinkRef
  event : Event
  start : World

namespace Broadcast

variable (b : Broadcast)

/-- The emitter as it is when the broadcast starts. -/
def emitter : Emitter := b.start.emitterAt b.source

/-- The sinks that are attached when the broadcast starts. -/
def audience : List SinkRef := b.start.sinksAt b.source

/-- What comes of the emission. -/
def result : Except Error Unit := ((emit b.host b.emitter b.event).exec b.start).1

/-- The world after the emission. -/
def finish : World := ((emit b.host b.emitter b.event).exec b.start).2

/-- The calls of sinks that are made. -/
def deliveries : List Delivery :=
  EvolvingGraph.deliveries b.host b.emitter.id b.event b.audience b.start

/-- The event reaches each sink that is attached at the start, once; if one fails, those
up to this one, and its failure is that of the emission. -/
structure Fair : Prop where
  /-- No sink is in the list twice. -/
  once : b.audience.Nodup
  /-- The source is not among its own sinks. -/
  others : b.source ∉ b.audience
  /-- Each delivery is a call of the sink. -/
  calls : ∀ d ∈ b.deliveries,
    (b.host.notify d.sink b.emitter.id b.event).exec d.start = (d.result, d.finish)
  /-- The calls are all that is done. -/
  chained : Chained b.start b.deliveries b.finish
  /-- The sinks are told in order, each in its turn, up to the first that fails. -/
  reaches : Reaches b.audience b.deliveries b.result

variable {b}

/-- **A broadcast is fair, whatever the sinks do.** -/
theorem fair (h : WellAttached b.start.sinksAt) : b.Fair where
  once := h.once b.source
  others := h.others b.source
  calls := fun _ hd => exec_of_mem_deliveries hd
  chained := chained_deliveries b.audience b.start
  reaches := reaches_deliveries b.audience b.start

end Broadcast

/-- What an operation does in a world is a broadcast: a graph has made a change, or a
generator announces one. -/
inductive World.Prompts (w : World) (host : Host) : Run Unit → Broadcast → Prop where
  | change {g : GraphRef} {c : Change} {graph : Graph} {event : Event}
      (takes : (w.objectAt g).graph.Takes c graph event) :
      Prompts w host (commit host g c) ⟨host, .graph g, event, w.put g graph⟩
  | announcement (g : GeneratorRef) {c : Change} {old : Value} {event : Event}
      (announced : c.announcement? old = some event) :
      Prompts w host (announce host g c .empty old) ⟨host, .generator g, event, w⟩

/-- An announcement is emitted as soon as there is an event for it. -/
theorem exec_announce_empty (host : Host) (g : GeneratorRef) (c : Change) (old : Value)
    (w : World) :
    (announce host g c .empty old).exec w = match c.announcement? old with
      | some event => (emit host (w.generatorAt g).emitter event).exec w
      | none => (.error .noSuchOperation, w) := by
  have hsettings : c.settings .empty = [] := by cases c <;> rfl
  unfold announce
  rw [accepts_empty, hsettings]
  show Run.exec ([c].forM _) w = _
  rw [Run.exec_forM_singleton]
  cases c.announcement? old <;> rfl

/-- An announcement with attributes is one announcement for the element alone, and then
one for each of its attributes. -/
theorem exec_announce (host : Host) (g : GeneratorRef) (c : Change) (attributes : Attributes)
    (old : Value) (w : World) :
    (announce host g c attributes old).exec w
      = if c.accepts attributes then
          ((c :: c.settings attributes).forM (announce host g · .empty old)).exec w
        else (.error .badArgument, w) := by
  cases haccepts : c.accepts attributes with
  | false =>
    unfold announce
    rw [haccepts]
    rfl
  | true =>
    rw [if_pos rfl, announce, haccepts]
    refine Run.exec_forM_congr (fun d _ v => ?_) w
    rw [exec_announce_empty]
    cases d.announcement? old <;> rfl

namespace World.Prompts

variable {w : World} {host : Host} {x : Run Unit} {b : Broadcast}

theorem host_eq (h : w.Prompts host x b) : b.host = host := by
  cases h <;> rfl

theorem sinksAt_start (h : w.Prompts host x b) : b.start.sinksAt = w.sinksAt := by
  cases h with
  | change takes => exact w.sinksAt_put _ _
  | announcement g announced => rfl

theorem received_start (h : w.Prompts host x b) : b.start.received = w.received := by
  cases h <;> rfl

/-- **Changes that are made are broadcast, and so are announcements.**  A failure of a
sink is a failure of the operation. -/
theorem exec_eq (h : w.Prompts host x b) : x.exec w = (b.result, b.finish) := by
  cases h with
  | @change g c graph event takes =>
    rw [exec_commit_takes takes]
    unfold Broadcast.result Broadcast.finish Broadcast.emitter
    rw [World.emitterAt_put]
    rfl
  | @announcement g c old event announced =>
    rw [exec_announce_empty, announced]
    rfl

end World.Prompts

/-! ## §4. Lists of sinks in the course of time. -/

/-- What can be done to the list of sinks of a source. -/
inductive Rewiring where
  | attach (s : SinkRef)
  | detach (s : SinkRef)
  | detachAll
  deriving DecidableEq

namespace Rewiring

/-- What becomes of the list.  A sink is attached at the end, unless it is attached. -/
def sinks : Rewiring → List SinkRef → List SinkRef
  | attach s, sinks => if s ∈ sinks then sinks else sinks ++ [s]
  | detach s, sinks => sinks.erase s
  | detachAll, _ => []

/-- What becomes of the emitter. -/
def emitter : Rewiring → Emitter → Emitter
  | attach s, e => e.attach s
  | detach s, e => e.detach s
  | detachAll, e => e.detachAll

theorem sinks_emitter (r : Rewiring) (e : Emitter) : (r.emitter e).sinks = r.sinks e.sinks := by
  cases r with
  | attach s =>
    show (e.attach s).sinks = if s ∈ e.sinks then e.sinks else e.sinks ++ [s]
    unfold Emitter.attach
    split <;> rfl
  | detach s | detachAll => rfl

theorem nodup_sinks {r : Rewiring} {sinks : List SinkRef} (h : sinks.Nodup) :
    (r.sinks sinks).Nodup := by
  cases r with
  | attach s =>
    rw [← sinks_emitter (.attach s) ⟨.null, sinks⟩]
    exact Emitter.nodup_attach h s
  | detach s => exact h.erase s
  | detachAll => exact List.nodup_nil

/-- Nothing is attached but what is to be attached. -/
theorem not_mem_sinks {r : Rewiring} {source : SinkRef} {sinks : List SinkRef}
    (h : source ∉ sinks) (hr : r ≠ .attach source) : source ∉ r.sinks sinks := by
  cases r with
  | attach s =>
    have hs : source ≠ s := fun heq => hr (congrArg Rewiring.attach heq.symm)
    show source ∉ if s ∈ sinks then sinks else sinks ++ [s]
    split
    · exact h
    · simp [h, hs]
  | detach s => exact fun hmem => h (List.mem_of_mem_erase hmem)
  | detachAll => exact List.not_mem_nil

end Rewiring

/-- Attaching and detaching leaves the lists in order. -/
theorem WellAttached.rewired {sinks : SinkRef → List SinkRef} (h : WellAttached sinks)
    {source : SinkRef} {r : Rewiring} (hr : r ≠ .attach source) :
    WellAttached (Function.update sinks source (r.sinks (sinks source))) := by
  refine ⟨fun x => ?_, fun x => ?_⟩ <;> by_cases hx : x = source
  · rw [hx, Function.update_self]
    exact Rewiring.nodup_sinks (h.once source)
  · rw [Function.update_of_ne hx]
    exact h.once x
  · rw [hx, Function.update_self]
    exact Rewiring.not_mem_sinks (h.others source) hr
  · rw [Function.update_of_ne hx]
    exact h.others x

/-- What happens between sources and sinks. -/
inductive Happening where
  | rewired (source : SinkRef) (r : Rewiring)
  | written (receipt : Receipt)
  | broadcast (b : Broadcast)

namespace Happening

/-- Lists of sinks are changed by attaching and detaching alone. -/
def sinks (before : SinkRef → List SinkRef) : Happening → SinkRef → List SinkRef
  | rewired source r => Function.update before source (r.sinks (before source))
  | written _ | broadcast _ => before

def receipts : Happening → List Receipt
  | written receipt => [receipt]
  | rewired .. | broadcast _ => []

/-- No source is attached to itself, and a broadcast starts with the lists as they are. -/
def Fits (sinks : SinkRef → List SinkRef) : Happening → Prop
  | rewired source r => r ≠ .attach source
  | written _ => True
  | broadcast b => b.start.sinksAt = sinks

end Happening

/-- The lists of sinks after some happenings. -/
def sinksAfter (sinks : SinkRef → List SinkRef) (hs : List Happening) : SinkRef → List SinkRef :=
  hs.foldl Happening.sinks sinks

theorem sinksAfter_append (sinks : SinkRef → List SinkRef) (hs hs' : List Happening) :
    sinksAfter sinks (hs ++ hs') = sinksAfter (sinksAfter sinks hs) hs' := List.foldl_append

/-- Each of the happenings fits to the lists as those before it have left them. -/
def Fitting : (SinkRef → List SinkRef) → List Happening → Prop
  | _, [] => True
  | sinks, h :: hs => h.Fits sinks ∧ Fitting (h.sinks sinks) hs

theorem fitting_append {sinks : SinkRef → List SinkRef} {hs hs' : List Happening} :
    Fitting sinks (hs ++ hs') ↔ Fitting sinks hs ∧ Fitting (sinksAfter sinks hs) hs' := by
  induction hs generalizing sinks with
  | nil => simp [Fitting, sinksAfter]
  | cons h hs ih => simp [Fitting, sinksAfter, ih, and_assoc]

/-- Happenings that fit leave the lists in order. -/
theorem WellAttached.sinksAfter {sinks : SinkRef → List SinkRef} (h : WellAttached sinks)
    {hs : List Happening} (hfits : Fitting sinks hs) : WellAttached (sinksAfter sinks hs) := by
  induction hs generalizing sinks with
  | nil => exact h
  | cons first hs ih =>
    refine ih ?_ hfits.2
    cases first with
    | rewired source r => exact h.rewired hfits.1
    | written receipt | broadcast b => exact h

/-! ## §5. Histories. -/

/-- What leads from one world to another, and what happens between sources and sinks on
this way.  Whatever is done while the sinks are told of an event stands behind the
broadcast. -/
inductive Proceeds : World → List Happening → World → Prop where
  | start (w : World) : Proceeds w [] w
  | elsewhere {w v w' : World} {hs : List Happening} (before : Proceeds w hs v)
      (graphs : v.KeepsGraphs w') (sinks : v.KeepsSinks w') : Proceeds w hs w'
  | unreported {w v : World} {hs : List Happening} (before : Proceeds w hs v) {g : GraphRef}
      {c : Change} (silent : ∀ graph event, ¬ (v.objectAt g).graph.Takes c graph event) :
      Proceeds w hs (v.put g ((v.objectAt g).graph.apply c).1)
  | written {w v : World} {hs : List Happening} (before : Proceeds w hs v) (receipt : Receipt) :
      Proceeds w (hs ++ [.written receipt]) (v.receive [receipt])
  | rewired {w v : World} {hs : List Happening} (before : Proceeds w hs v) {source : SinkRef}
      (present : v.HasSource source) {r : Rewiring} (others : r ≠ .attach source) :
      Proceeds w (hs ++ [.rewired source r]) (v.withEmitter source r.emitter)
  | broadcast {w v : World} {hs : List Happening} (before : Proceeds w hs v) {host : Host}
      {x : Run Unit} {b : Broadcast} (prompts : v.Prompts host x b)
      {inside : Delivery → List Happening}
      (told : ∀ d ∈ b.deliveries, Proceeds d.start (inside d) d.finish) :
      Proceeds w (hs ++ .broadcast b :: b.deliveries.flatMap inside) b.finish

/-- The happenings say what has become of the lists of sinks, and what has been written. -/
structure Tallies (w : World) (hs : List Happening) (w' : World) : Prop where
  fitting : Fitting w.sinksAt hs
  sinks : w'.sinksAt = sinksAfter w.sinksAt hs
  received : w'.received = w.received ++ hs.flatMap Happening.receipts

namespace Tallies

variable {u v w : World} {hs hs' : List Happening}

theorem nil (hsinks : v.sinksAt = u.sinksAt) (hreceived : v.received = u.received) :
    Tallies u [] v :=
  ⟨trivial, hsinks, hreceived.trans (List.append_nil _).symm⟩

theorem append (h : Tallies u hs v) (h' : Tallies v hs' w) : Tallies u (hs ++ hs') w where
  fitting := fitting_append.2 ⟨h.fitting, h.sinks ▸ h'.fitting⟩
  sinks := by rw [h'.sinks, h.sinks, sinksAfter_append]
  received := by rw [h'.received, h.received, List.flatMap_append, List.append_assoc]

/-- Deliveries, one after the other. -/
theorem deliveries {inside : Delivery → List Happening} {ds : List Delivery}
    (hchained : Chained u ds v) (h : ∀ d ∈ ds, Tallies d.start (inside d) d.finish) :
    Tallies u (ds.flatMap inside) v := by
  induction ds generalizing u with
  | nil =>
    obtain rfl : u = v := hchained
    exact .nil rfl rfl
  | cons d ds ih =>
    -- the next delivery starts where this one has ended
    obtain ⟨rfl, hrest⟩ := hchained
    rw [List.flatMap_cons]
    obtain ⟨hd, hds⟩ := List.forall_mem_cons.1 h
    exact hd.append (ih hrest hds)

end Tallies

/-- **What has become of the lists of sinks can be told from the history**, and so can
what has been written. -/
theorem Proceeds.tallies {w w' : World} {hs : List Happening} (h : Proceeds w hs w') :
    Tallies w hs w' := by
  induction h with
  | start w => exact .nil rfl rfl
  | @elsewhere w v w' hs before graphs sinks ih =>
    rw [← List.append_nil hs]
    exact ih.append (.nil (funext sinks) graphs.received)
  | @unreported w v hs before g c silent ih =>
    rw [← List.append_nil hs]
    exact ih.append (.nil (v.sinksAt_put g _) rfl)
  | written before receipt ih =>
    exact ih.append ⟨⟨trivial, trivial⟩, rfl, rfl⟩
  | @rewired w v hs before source present r others ih =>
    refine ih.append ⟨⟨others, trivial⟩, ?_, ?_⟩
    · rw [World.sinksAt_withEmitter present, Rewiring.sinks_emitter]
      rfl
    · simp [Happening.receipts]
  | @broadcast w v hs before host x b prompts inside told ih ih' =>
    -- the change itself leaves the lists alone; all else is done by the sinks
    have hstart : Tallies v [.broadcast b] b.start :=
      ⟨⟨prompts.sinksAt_start, trivial⟩, prompts.sinksAt_start, by
        simp [Happening.receipts, prompts.received_start]⟩
    have htold := Tallies.deliveries (chained_deliveries b.audience b.start) ih'
    exact ih.append (hstart.append htold)

/-- What is true of all that happens between sources and sinks on the way from one world
to another. -/
structure DeliversFairly (w : World) (hs : List Happening) (w' : World) : Prop where
  /-- What is written has happened. -/
  received : w'.received = w.received ++ hs.flatMap Happening.receipts
  /-- The lists of sinks are what attaching and detaching have made them. -/
  sinks : w'.sinksAt = sinksAfter w.sinksAt hs
  /-- At no time is a sink listed twice, or a source among its own sinks. -/
  wellAttached : ∀ before after, hs = before ++ after →
    WellAttached (sinksAfter w.sinksAt before)
  /-- Each event reaches the sinks that are attached when its emission starts, once. -/
  fair : ∀ before b after, hs = before ++ .broadcast b :: after →
    b.audience = sinksAfter w.sinksAt before b.source ∧ b.Fair

/-- **Deliveries are fair in the course of time.** -/
theorem Proceeds.deliversFairly {w w' : World} {hs : List Happening} (h : Proceeds w hs w')
    (hw : WellAttached w.sinksAt) : DeliversFairly w hs w' where
  received := h.tallies.received
  sinks := h.tallies.sinks
  wellAttached := by
    rintro before after rfl
    exact hw.sinksAfter (fitting_append.1 h.tallies.fitting).1
  fair := by
    rintro before b after rfl
    obtain ⟨hbefore, hstart, -⟩ := fitting_append.1 h.tallies.fitting
    have hsinks : b.start.sinksAt = sinksAfter w.sinksAt before := hstart
    exact ⟨congrFun hsinks b.source, Broadcast.fair (hsinks ▸ hw.sinksAfter hbefore)⟩

end EvolvingGraph
