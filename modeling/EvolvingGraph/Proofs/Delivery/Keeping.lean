/-
  EvolvingGraph.Proofs.Delivery.Keeping
  ─────────────────────────────────────
  **WHAT EVERY STEP OF AN OPERATION KEEPS, THE OPERATION KEEPS.**

  An operation may fail, and what it changed before stays changed, so what can be
  said of the world afterwards has to be kept by each of its steps.  There is one
  rule for each way of putting operations together, and the rules are instances:
  an operation that is made of steps that keep something is seen to keep it by
  going through its text.

  Besides changes to graphs an operation does many things that leave the graphs
  and the receipts as they are.  Something that does not depend on anything else,
  and does not mind more receipts (`Lasting`), is kept by all of them.  What
  depends on the runs of generators too (`LastingAtRest`) is kept by those of them
  in which no generator moves, what depends on the trees as well (`LastingUnassigned`)
  by those in which, besides, nothing is assigned to a tree, and what depends on the
  lists of sinks, too (`LastingUnattached`), by those in which no sink is attached or
  detached.

  Main statements:
    * `Run.Keeps.bind`, `Run.Keeps.forM`, `Run.Keeps.attempt` — the rules;
    * `Run.Keeps.of_keepsGraphs` — steps that leave graphs and receipts as they are;
    * `Run.Keeps.of_keepsSinks` — steps that leave the runs of generators, the trees and
      the lists of sinks as they are, too.
-/
import EvolvingGraph.Evaluation
import EvolvingGraph.Proofs.Delivery.Passive
import EvolvingGraph.Proofs.Generation.Calls

namespace EvolvingGraph

variable {α β γ : Type}

/-! ## §1. Rules. -/

/-- An operation keeps worlds of some kind of this kind, whether it fails or not. -/
class Run.Keeps (kept : World → Prop) (x : Run α) : Prop where
  after : ∀ w, kept w → kept (x.exec w).2

namespace Run.Keeps

variable {kept : World → Prop}

theorem of_reads {x : Run α} (h : Reads x) : Keeps kept x := ⟨fun w hw => (h w).symm ▸ hw⟩

/-- What does the same in every world of the kind can stand for it. -/
theorem of_exec {x x' : Run α} (h : Keeps kept x') (hx : ∀ w, kept w → x.exec w = x'.exec w) :
    Keeps kept x := by
  refine ⟨fun w hw => ?_⟩
  rw [hx w hw]
  exact h.after w hw

/-- Of what an operation answers in a world of the kind may be used what is true of it. -/
theorem bind_of_ok {x : Run α} {f : α → Run β} (h : Keeps kept x)
    (hf : ∀ w a w', kept w → x.exec w = (.ok a, w') → Keeps kept (f a)) :
    Keeps kept (x >>= f) := by
  refine ⟨fun w hw => ?_⟩
  have hafter := h.after w hw
  rw [exec_bind]
  rcases hx : x.exec w with ⟨e | a, w'⟩ <;> rw [hx] at hafter
  · exact hafter
  · exact (hf w a w' hw hx).after w' hafter

theorem bind {x : Run α} {f : α → Run β} (h : Keeps kept x) (hf : ∀ a, Keeps kept (f a)) :
    Keeps kept (x >>= f) := h.bind_of_ok fun _ a _ _ _ => hf a

/-- An answer changes nothing. -/
theorem of_bind_pure {x : Run α} {a : β} (h : Keeps kept (x >>= fun _ => pure a)) :
    Keeps kept x := by
  refine ⟨fun w hw => ?_⟩
  have hafter := h.after w hw
  rw [exec_bind] at hafter
  rcases hx : x.exec w with ⟨_ | _, w'⟩ <;> rw [hx] at hafter <;> exact hafter

instance (a : α) : Keeps kept (pure a : Run α) := of_reads (.pure a)

instance (e : Error) : Keeps kept (throw e : Run α) := of_reads (.throw e)

instance (result : Except Error α) : Keeps kept (Run.ofExcept result) := of_reads (.ofExcept result)

instance : Keeps kept (get : Run World) := ⟨fun _ hw => hw⟩

instance (x : Run α) (f : α → Run β) [h : Keeps kept x] [hf : ∀ a, Keeps kept (f a)] :
    Keeps kept (x >>= f) := h.bind hf

instance (f : α → β) (x : Run α) [Keeps kept x] : Keeps kept (f <$> x) := by
  rw [map_eq_pure_bind]
  infer_instance

instance (c : Prop) [Decidable c] (x y : Run α) [Keeps kept x] [Keeps kept y] :
    Keeps kept (if c then x else y) := by
  split <;> infer_instance

/-- What is done about a failure does not matter here. -/
instance attempt (x : Run α) [h : Keeps kept x] : Keeps kept (Run.attempt x) := ⟨h.after⟩

instance (x : Run α) (afterwards : Run Unit) [Keeps kept x] [Keeps kept afterwards] :
    Keeps kept (Run.ensuring x afterwards) := by
  unfold Run.ensuring
  infer_instance

instance forM (f : γ → Run Unit) (xs : List γ) [h : ∀ x, Keeps kept (f x)] :
    Keeps kept (xs.forM f) := ⟨fun _ hw => forM_keeps (fun x _ => (h x).after) hw⟩

instance mapM (f : γ → Run α) (xs : List γ) [∀ x, Keeps kept (f x)] : Keeps kept (xs.mapM f) := by
  induction xs with
  | nil => exact of_reads (.pure _)
  | cons x xs ih =>
    rw [List.mapM_cons]
    infer_instance

instance (x : Run α) [h : Keeps kept x] : Keeps kept (discard x) := by
  refine ⟨fun w hw => ?_⟩
  have hafter := h.after w hw
  rw [exec_discard]
  rcases hx : x.exec w with ⟨_ | _, w'⟩ <;> rw [hx] at hafter <;> exact hafter

end Run.Keeps

/-! ## §2. Steps that leave the graphs as they are. -/

theorem Heap.lt_size_push {h : Heap α} {i : Nat} (hi : i < h.size) (a : α) :
    i < (h.push a).size := by
  simp only [Heap.size, Heap.push, List.length_append, List.length_singleton] at hi ⊢
  omega

/-- What is added leaves everything else in its place. -/
theorem Heap.get_push [Inhabited α] {h : Heap α} {i : Nat} (hi : i < h.size) (a : α) :
    (h.push a).get i = h.get i := by
  unfold Heap.get Heap.push
  rw [List.getD_append _ _ _ _ hi]

/-- What is added does not matter where it counts as much as nothing. -/
theorem Heap.get_push_eq [Inhabited α] {h : Heap α} {i : Nat} {a : α} (f : α → β)
    (ha : f a = f default) : f ((h.push a).get i) = f (h.get i) := by
  obtain hi | rfl | hi := Nat.lt_trichotomy i h.size
  · rw [get_push hi]
  · simp [get, push, size, ha]
  · have hlong : (h.cells ++ [a]).length ≤ i := by
      simp only [size] at hi
      simp only [List.length_append, List.length_singleton]
      omega
    unfold get push
    rw [List.getD_eq_default _ _ hlong, List.getD_eq_default _ _ (Nat.le_of_lt hi)]

/-- The graphs that are there hold what they held, and no receipt is written. -/
structure World.KeepsGraphs (w w' : World) : Prop where
  graphs : ∀ g, w.HasGraph g → w'.HasGraph g ∧ (w'.objectAt g).graph = (w.objectAt g).graph
  received : w'.received = w.received

theorem World.KeepsGraphs.of_graphs_eq {w w' : World} (h : w'.graphs = w.graphs)
    (hreceived : w'.received = w.received) : w.KeepsGraphs w' := by
  refine ⟨fun g hg => ?_, hreceived⟩
  unfold World.HasGraph World.objectAt at *
  rw [h]
  exact ⟨hg, rfl⟩

/-- What is kept as long as the graphs hold what they held, also where receipts
are written. -/
class Lasting (kept : World → Prop) : Prop where
  elsewhere : ∀ {w w' : World}, kept w → w.KeepsGraphs w' → kept w'
  written : ∀ {w : World} (receipt : Receipt), kept w → kept (w.receive [receipt])

/-- The lines of the log that tell of runs of generators. -/
def World.runLines (w : World) : List LogEntry := w.log.filter (·.channel = .generation)

/-- The generators are at rest: those that are there have come as far as they had,
and the log tells of no more runs. -/
structure World.KeepsRuns (w w' : World) : Prop where
  generators : ∀ g, w.HasGenerator g → w'.HasGenerator g ∧ w'.life g = w.life g
  lines : w'.runLines = w.runLines

theorem World.KeepsRuns.of_eq {w w' : World} (h : w'.generators = w.generators)
    (hlog : w'.log = w.log) : w.KeepsRuns w' := by
  refine ⟨fun g hg => ?_, ?_⟩
  · unfold World.HasGenerator World.life World.generatorAt at *
    rw [h]
    exact ⟨hg, rfl⟩
  · unfold World.runLines
    rw [hlog]

/-- A generator may be changed as long as it has come as far as it had. -/
theorem World.keepsRuns_withGenerator {f : Generator → Generator}
    (hphase : ∀ x, (f x).phase = x.phase) (hcount : ∀ x, (f x).stepCount = x.stepCount)
    (w : World) (g : GeneratorRef) : w.KeepsRuns (w.withGenerator g f) := by
  refine ⟨fun g' hg' => ⟨(hasGenerator_withGenerator_iff f).2 hg', ?_⟩, rfl⟩
  by_cases h : g = g'
  · unfold World.life
    rw [h, generatorAt_withGenerator hg', hphase, hcount]
  · exact life_withGenerator_of_ne h f

/-- The emitter of a graph or a generator.  Other sinks emit nothing. -/
def World.emitterAt (w : World) : SinkRef → Emitter
  | .graph g => (w.objectAt g).emitter
  | .generator g => (w.generatorAt g).emitter
  | .recorder _ | .silent _ => default

/-- The sinks that are attached to a source, in order. -/
def World.sinksAt (w : World) (source : SinkRef) : List SinkRef := (w.emitterAt source).sinks

/-- No sink is attached or detached.  What is new has no sinks. -/
def World.KeepsSinks (w w' : World) : Prop := ∀ source, w'.sinksAt source = w.sinksAt source

theorem World.KeepsSinks.of_eq {w w' : World} (hgraphs : w'.graphs = w.graphs)
    (hgenerators : w'.generators = w.generators) : w.KeepsSinks w' := by
  intro source
  cases source with
  | graph g => exact congrArg (fun graphs => (graphs.get g.index).emitter.sinks) hgraphs
  | generator g =>
    exact congrArg (fun generators => (generators.get g.index).emitter.sinks) hgenerators
  | recorder i | silent i => rfl

/-- A generator may be changed as long as its sinks stay what they are. -/
theorem World.keepsSinks_withGenerator {f : Generator → Generator}
    (hsinks : ∀ x, (f x).emitter.sinks = x.emitter.sinks) (w : World) (g : GeneratorRef) :
    w.KeepsSinks (w.withGenerator g f) := by
  intro source
  cases source with
  | generator g' =>
    show ((w.withGenerator g f).generatorAt g').emitter.sinks = (w.generatorAt g').emitter.sinks
    by_cases hg : w.HasGenerator g
    · by_cases h : g = g'
      · rw [← h, generatorAt_withGenerator hg, hsinks]
      · rw [generatorAt_withGenerator_of_ne h]
    · rw [withGenerator_of_not_hasGenerator hg]
  | graph g' | recorder i | silent i => rfl

/-- What is kept as long as the graphs hold what they held and the generators are
at rest, also where receipts are written. -/
class LastingAtRest (kept : World → Prop) : Prop where
  elsewhere : ∀ {w w' : World}, kept w → w.KeepsGraphs w' → w.KeepsRuns w' → kept w'
  written : ∀ {w : World} (receipt : Receipt), kept w → kept (w.receive [receipt])

/-- What is kept as long as the graphs hold what they held, the generators are at rest
and nothing is assigned to a tree, also where receipts are written. -/
class LastingUnassigned (kept : World → Prop) : Prop where
  elsewhere : ∀ {w w' : World}, kept w → w.KeepsGraphs w' → w.KeepsRuns w' →
    w'.trees = w.trees → kept w'
  written : ∀ {w : World} (receipt : Receipt), kept w → kept (w.receive [receipt])

/-- What is kept as long as the graphs hold what they held, the generators are at rest,
nothing is assigned to a tree and no sink is attached or detached, also where receipts
are written. -/
class LastingUnattached (kept : World → Prop) : Prop where
  elsewhere : ∀ {w w' : World}, kept w → w.KeepsGraphs w' → w.KeepsRuns w' →
    w'.trees = w.trees → w.KeepsSinks w' → kept w'
  written : ∀ {w : World} (receipt : Receipt), kept w → kept (w.receive [receipt])

open Run

variable {kept : World → Prop}

instance [Lasting kept] : LastingAtRest kept where
  elsewhere := fun hw hgraphs _ => Lasting.elsewhere hw hgraphs
  written := Lasting.written

instance [LastingAtRest kept] : LastingUnassigned kept where
  elsewhere := fun hw hgraphs hruns _ => LastingAtRest.elsewhere hw hgraphs hruns
  written := LastingAtRest.written

instance [LastingUnassigned kept] : LastingUnattached kept where
  elsewhere := fun hw hgraphs hruns htrees _ => LastingUnassigned.elsewhere hw hgraphs hruns htrees
  written := LastingUnassigned.written

theorem Run.Keeps.of_keepsGraphs [Lasting kept] {x : Run α}
    (h : ∀ w : World, w.KeepsGraphs (x.exec w).2) : Keeps kept x :=
  ⟨fun w hw => Lasting.elsewhere hw (h w)⟩

theorem Run.Keeps.of_graphs_eq [Lasting kept] {x : Run α}
    (h : ∀ w : World, (x.exec w).2.graphs = w.graphs)
    (hreceived : ∀ w : World, (x.exec w).2.received = w.received) : Keeps kept x :=
  .of_keepsGraphs fun w => .of_graphs_eq (h w) (hreceived w)

theorem Run.Keeps.of_keepsSinks [LastingUnattached kept] {x : Run α}
    (hgraphs : ∀ w : World, w.KeepsGraphs (x.exec w).2)
    (hruns : ∀ w : World, w.KeepsRuns (x.exec w).2)
    (htrees : ∀ w : World, (x.exec w).2.trees = w.trees)
    (hsinks : ∀ w : World, w.KeepsSinks (x.exec w).2) : Keeps kept x :=
  ⟨fun w hw => LastingUnattached.elsewhere hw (hgraphs w) (hruns w) (htrees w) (hsinks w)⟩

theorem Run.Keeps.of_elsewhere [LastingUnattached kept] {x : Run α}
    (hgraphs : ∀ w : World, (x.exec w).2.graphs = w.graphs)
    (hreceived : ∀ w : World, (x.exec w).2.received = w.received)
    (hgenerators : ∀ w : World, (x.exec w).2.generators = w.generators)
    (hlog : ∀ w : World, (x.exec w).2.log = w.log)
    (htrees : ∀ w : World, (x.exec w).2.trees = w.trees) : Keeps kept x :=
  .of_keepsSinks (fun w => .of_graphs_eq (hgraphs w) (hreceived w))
    (fun w => .of_eq (hgenerators w) (hlog w)) htrees
    fun w => .of_eq (hgraphs w) (hgenerators w)

section Objects

instance (g : GraphRef) : Keeps kept (World.graphObject g) := ⟨fun _ hw => hw⟩

instance (g : GraphRef) : Keeps kept (World.graph g) := ⟨fun _ hw => hw⟩

instance (g : GeneratorRef) : Keeps kept (World.generator g) := ⟨fun _ hw => hw⟩

instance (t : TreeRef) : Keeps kept (World.tree t) := ⟨fun _ hw => hw⟩

instance (c : CursorRef) : Keeps kept (World.cursor c) := ⟨fun _ hw => hw⟩

instance (s : SinkRef) : Keeps kept (World.sinkLabel s) := ⟨fun _ hw => hw⟩

instance (name : String) : Keeps kept (World.object name) := by
  unfold World.object
  refine .bind inferInstance fun w => ?_
  split <;> infer_instance

instance [Lasting kept] (g : GeneratorRef) (f : Generator → Generator) :
    Keeps kept (World.modifyGenerator g f) := .of_graphs_eq (fun _ => rfl) fun _ => rfl

instance [Lasting kept] (entry : LogEntry) : Keeps kept (World.note entry) :=
  .of_graphs_eq (fun _ => rfl) fun _ => rfl

variable [LastingUnattached kept]

theorem keeps_modifyGenerator {f : Generator → Generator} (hphase : ∀ x, (f x).phase = x.phase)
    (hcount : ∀ x, (f x).stepCount = x.stepCount)
    (hsinks : ∀ x, (f x).emitter.sinks = x.emitter.sinks) (g : GeneratorRef) :
    Keeps kept (World.modifyGenerator g f) :=
  .of_keepsSinks (fun _ => .of_graphs_eq rfl rfl)
    (fun w => World.keepsRuns_withGenerator hphase hcount w g) (fun _ => rfl)
    fun w => World.keepsSinks_withGenerator hsinks w g

/-- A line that does not tell of a run may be written at any time. -/
theorem keeps_note {entry : LogEntry} (h : entry.channel = .marking) :
    Keeps kept (World.note entry) := by
  refine .of_keepsSinks (fun _ => .of_graphs_eq rfl rfl) (fun w => ⟨fun g hg => ⟨hg, rfl⟩, ?_⟩)
    (fun _ => rfl) fun _ => .of_eq rfl rfl
  show (w.log ++ [entry]).filter _ = w.log.filter _
  simp [h]

instance : Keeps kept (World.note .nothingToCompute) := keeps_note rfl

instance (strategy : Strategy) (mode : Forest.Mode) (graph : String) :
    Keeps kept (World.note (.computing strategy mode graph)) := keeps_note rfl

instance (marked total : Nat) : Keeps kept (World.note (.computed marked total)) := keeps_note rfl

instance (v : Value) : Keeps kept (World.note (.ignoredFlagOn v)) := keeps_note rfl

instance (v : Value) : Keeps kept (World.note (.ignoredFlagOff v)) := keeps_note rfl

instance (c : CursorRef) (state : CursorState) : Keeps kept (World.setCursor c state) :=
  .of_elsewhere (fun _ => rfl) (fun _ => rfl) (fun _ => rfl) (fun _ => rfl) fun _ => rfl

instance (name : String) (object : Object) : Keeps kept (World.bind name object) :=
  .of_elsewhere (fun _ => rfl) (fun _ => rfl) (fun _ => rfl) (fun _ => rfl) fun _ => rfl

instance (count : Nat) : Keeps kept (World.reserveMarks count) :=
  .of_elsewhere (fun _ => rfl) (fun _ => rfl) (fun _ => rfl) (fun _ => rfl) fun _ => rfl

end Objects

/-! ## §3. Terms. -/

section Terms

instance (name : String) : Keeps kept (referenced name) := by
  unfold referenced
  refine .bind inferInstance fun object => ?_
  split <;> infer_instance

mutual

theorem keeps_evaluate [∀ count, Keeps kept (World.reserveMarks count)] :
    ∀ t : Term, Keeps kept (evaluate t)
  | .value v => by
    unfold evaluate
    infer_instance
  | .nan => by
    unfold evaluate
    infer_instance
  | .reference name => by
    unfold evaluate
    infer_instance
  | .tuple items => by
    unfold evaluate
    have := keeps_evaluateAll items
    infer_instance
  | .list items => by
    unfold evaluate
    have := keeps_evaluateAll items
    infer_instance

theorem keeps_evaluateAll [∀ count, Keeps kept (World.reserveMarks count)] :
    ∀ ts : List Term, Keeps kept (evaluateAll ts)
  | [] => by
    unfold evaluateAll
    infer_instance
  | t :: rest => by
    unfold evaluateAll
    have := keeps_evaluate t
    have := keeps_evaluateAll rest
    infer_instance

end

variable [∀ count, Keeps kept (World.reserveMarks count)]

instance (t : Term) : Keeps kept (evaluate t) := keeps_evaluate t

instance (ts : List Term) : Keeps kept (evaluateAll ts) := keeps_evaluateAll ts

instance (default : Value) (t : Option Term) : Keeps kept (evaluateOr default t) := by
  unfold evaluateOr
  split <;> infer_instance

instance (terms : AttributeTerms) : Keeps kept (evaluatePairs terms) := by
  unfold evaluatePairs
  infer_instance

instance (terms : AttributeTerms) : Keeps kept (evaluateAttributes terms) := by
  unfold evaluateAttributes
  refine .bind inferInstance fun pairs => ?_
  split <;> infer_instance

end Terms
end EvolvingGraph
