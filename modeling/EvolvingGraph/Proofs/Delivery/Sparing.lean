/-
  EvolvingGraph.Proofs.Delivery.Sparing
  ─────────────────────────────────────
  **WHAT LEAVES A GRAPH ALONE, AND IS NOT HEARD OF BY ITS SINKS.**

  Events lead from a graph to its sinks, from there to the sinks of graphs that
  follow, and so on.  A graph that is not on the way stays as it is, and emits
  nothing: whatever sinks were attached to it, everything would go the same way.

  The sinks on the way may do what they like as long as they keep to this
  themselves.  What they can rely on is a condition on worlds (`calm`), which does
  not depend on what the graphs on the way hold.

  Main statements:
    * `Run.Spares` — what leaves a graph alone, and its rules as instances;
    * `Enclosure.spares_perform` — so do requests to the graphs on the way;
    * `Enclosure.Tame.sealed` — and, at every depth, all sinks on the way, if those do
      that are no graphs;
    * `Enclosure.tame_ofWorld` — recorders that react to nothing do.
-/
import EvolvingGraph.Proofs.Delivery.Passive
import EvolvingGraph.Proofs.Generation.Calls

namespace EvolvingGraph

open Run

variable {α β γ : Type}

/-! ## §1. Other sinks. -/

namespace World

/-- The world with other sinks attached to a graph. -/
def reattached (w : World) (g : GraphRef) (sinks : List SinkRef) : World :=
  { w with
    graphs := w.graphs.set g.index { w.objectAt g with
      emitter := ⟨(w.objectAt g).emitter.id, sinks⟩ } }

variable {w : World} {g g' : GraphRef} {sinks : List SinkRef}

theorem objectAt_reattached_of_ne (h : g ≠ g') :
    (w.reattached g sinks).objectAt g' = w.objectAt g' := Heap.get_set_of_ne (GraphRef.index_ne h) _

/-- The graphs hold what they held. -/
theorem graph_objectAt_reattached (w : World) (g g' : GraphRef) (sinks : List SinkRef) :
    ((w.reattached g sinks).objectAt g').graph = (w.objectAt g').graph := by
  by_cases h : g = g'
  · subst h
    by_cases hpresent : w.HasGraph g
    · show ((w.graphs.set g.index _).get g.index).graph = _
      rw [Heap.get_set_self hpresent]
    · show ((w.graphs.set g.index _).get g.index).graph = _
      rw [Heap.set_of_size_le (Nat.le_of_not_lt hpresent)]
      rfl
  · rw [objectAt_reattached_of_ne h]

/-- A graph can be put before or after sinks are attached to another one. -/
theorem put_reattached (h : g ≠ g') (graph : Graph) :
    (w.reattached g sinks).put g' graph = (w.put g' graph).reattached g sinks := by
  have hindex := GraphRef.index_ne h
  have hgraphs : (w.reattached g sinks).graphs.set g'.index
        { (w.reattached g sinks).objectAt g' with graph := graph }
      = (w.put g' graph).graphs.set g.index { (w.put g' graph).objectAt g with
          emitter := ⟨((w.put g' graph).objectAt g).emitter.id, sinks⟩ } := by
    rw [objectAt_reattached_of_ne h, objectAt_put_of_ne (Ne.symm h)]
    exact Heap.set_comm _ hindex _ _
  show ({ w with graphs := _ } : World) = { w with graphs := _ }
  exact congrArg (fun graphs => { w with graphs }) hgraphs

end World

/-! ## §2. What leaves a graph alone. -/

/-- What events may reach, and a graph that they do not reach. -/
structure Enclosure where
  /-- The sinks that may be told of something. -/
  inside : SinkRef → Prop
  /-- The worlds in which that is so. -/
  calm : World → Prop
  outsider : GraphRef
  outside : ¬ inside (.graph outsider)
  attached : ∀ {w g s}, calm w → inside (.graph g) → s ∈ (w.objectAt g).emitter.sinks → inside s
  put : ∀ {w g} graph, calm w → inside (.graph g) → calm (w.put g graph)
  logged : ∀ {w} entry, calm w → calm (w.logged entry)
  marked : ∀ {w : World} nextMark, calm w → calm { w with nextMark }

namespace Enclosure

variable (e : Enclosure)

theorem outsider_ne {g : GraphRef} (hg : e.inside (.graph g)) : e.outsider ≠ g := by
  rintro rfl
  exact e.outside hg

end Enclosure

/-- In calm worlds an operation leaves the outsider alone, whether it fails or not, and
would do the same whatever sinks were attached to the outsider: none of them is told of
anything. -/
class Run.Spares (e : Enclosure) (x : Run α) : Prop where
  calm : ∀ w, e.calm w → e.calm (x.exec w).2
  object : ∀ w, e.calm w → (x.exec w).2.objectAt e.outsider = w.objectAt e.outsider
  unheard : ∀ w sinks, e.calm w → x.exec (w.reattached e.outsider sinks)
    = ((x.exec w).1, (x.exec w).2.reattached e.outsider sinks)

namespace Run.Spares

variable {e : Enclosure}

/-- What reads something that the sinks of the outsider have nothing to do with. -/
theorem of_reads {x : Run α} (h : x.Reads)
    (hsame : ∀ w sinks, (x.exec (w.reattached e.outsider sinks)).1 = (x.exec w).1) :
    Spares e x where
  calm := fun w hw => (h w).symm ▸ hw
  object := fun w _ => by rw [h w]
  unheard := fun w sinks _ => by
    rw [h w, ← hsame w sinks]
    exact Prod.ext rfl (h _)

/-- Of what an operation answers in a calm world may be used what is true of it. -/
theorem bind_of_ok {x : Run α} {f : α → Run β} (h : Spares e x)
    (hf : ∀ w a w', e.calm w → x.exec w = (.ok a, w') → Spares e (f a)) : Spares e (x >>= f) where
  calm := fun w hw => by
    have hcalm := h.calm w hw
    rw [exec_bind]
    rcases hx : x.exec w with ⟨_ | a, w'⟩ <;> rw [hx] at hcalm
    · exact hcalm
    · exact (hf w a w' hw hx).calm w' hcalm
  object := fun w hw => by
    have hcalm := h.calm w hw
    have hobject := h.object w hw
    rw [exec_bind]
    rcases hx : x.exec w with ⟨_ | a, w'⟩ <;> rw [hx] at hcalm hobject
    · exact hobject
    · exact ((hf w a w' hw hx).object w' hcalm).trans hobject
  unheard := fun w sinks hw => by
    have hcalm := h.calm w hw
    have hunheard := h.unheard w sinks hw
    rw [exec_bind, exec_bind, hunheard]
    rcases hx : x.exec w with ⟨_ | a, w'⟩ <;> rw [hx] at hcalm
    exact (hf w a w' hw hx).unheard w' sinks hcalm

theorem bind {x : Run α} {f : α → Run β} (h : Spares e x) (hf : ∀ a, Spares e (f a)) :
    Spares e (x >>= f) := h.bind_of_ok fun _ a _ _ _ => hf a

instance (a : α) : Spares e (pure a : Run α) := of_reads (.pure a) fun _ _ => rfl

instance (error : Error) : Spares e (throw error : Run α) := of_reads (.throw error) fun _ _ => rfl

instance (result : Except Error α) : Spares e (Run.ofExcept result) := by
  refine of_reads (.ofExcept result) fun w sinks => ?_
  rw [exec_ofExcept, exec_ofExcept]

instance (x : Run α) (f : α → Run β) [h : Spares e x] [hf : ∀ a, Spares e (f a)] :
    Spares e (x >>= f) := h.bind hf

instance (c : Prop) [Decidable c] (x y : Run α) [Spares e x] [Spares e y] :
    Spares e (if c then x else y) := by
  split <;> infer_instance

theorem forM_of_mem {f : γ → Run Unit} {xs : List γ} (h : ∀ x ∈ xs, Spares e (f x)) :
    Spares e (xs.forM f) := by
  induction xs with
  | nil => exact of_reads (.pure _) fun _ _ => rfl
  | cons x xs ih =>
    have hfirst := h x List.mem_cons_self
    have hrest := ih fun y hy => h y (List.mem_cons_of_mem _ hy)
    exact hfirst.bind fun _ => hrest

instance (f : γ → Run α) (xs : List γ) [∀ x, Spares e (f x)] : Spares e (xs.mapM f) := by
  induction xs with
  | nil => exact of_reads (.pure _) fun _ _ => rfl
  | cons x xs ih =>
    rw [List.mapM_cons]
    infer_instance

instance (t : TreeRef) : Spares e (World.tree t) := of_reads (.tree t) fun _ _ => rfl

/-- Any graph may be read, the outsider too. -/
instance (g : GraphRef) : Spares e (World.graph g) := by
  refine of_reads (.graph g) fun w sinks => ?_
  rw [exec_graph, exec_graph, World.graph_objectAt_reattached]

theorem graphObject {g : GraphRef} (hg : e.inside (.graph g)) : Spares e (World.graphObject g) := by
  refine of_reads (fun _ => rfl) fun w sinks => ?_
  rw [exec_graphObject, exec_graphObject, World.objectAt_reattached_of_ne (e.outsider_ne hg)]

instance (entry : LogEntry) : Spares e (World.note entry) where
  calm := fun _ hw => e.logged entry hw
  object := fun _ _ => rfl
  unheard := fun _ _ _ => rfl

instance (count : Nat) : Spares e (World.reserveMarks count) where
  calm := fun _ hw => e.marked _ hw
  object := fun _ _ => rfl
  unheard := fun _ _ _ => rfl

instance (name : String) : Spares e (World.object name) := by
  have hexec : ∀ w : World, (World.object name).exec w
      = (match w.bindings.lookup name with
        | some object => .ok object
        | none => .error (.noObject name), w) := by
    intro w
    show exec (match w.bindings.lookup name with
      | some object => pure object
      | none => throw (.noObject name)) w = _
    rcases w.bindings.lookup name with _ | object <;> rfl
  refine of_reads (fun w => ?_) fun w sinks => ?_
  · rw [hexec]
  · rw [hexec, hexec]
    rfl

end Run.Spares

/-! ## §3. Changes and requests. -/

/-- Under a host all sinks inside leave the outsider alone. -/
def Enclosure.Sealed (e : Enclosure) (host : Host) : Prop :=
  ∀ s sender event, e.inside s → Spares e (host.notify s sender event)

namespace Enclosure.Sealed

variable {e : Enclosure} {host : Host} {g : GraphRef}

theorem spares_commit (h : e.Sealed host) (hg : e.inside (.graph g)) (c : Change) :
    Spares e (commit host g c) := by
  have hne := e.outsider_ne hg
  have hput : ∀ graph, Spares e (World.setGraph g graph) := fun graph =>
    { calm := fun _ hw => e.put graph hw hg
      object := fun _ _ => World.objectAt_put_of_ne (Ne.symm hne) graph
      unheard := fun w sinks _ => by
        rw [exec_setGraph, exec_setGraph, World.put_reattached hne] }
  unfold commit
  refine (Spares.graphObject hg).bind_of_ok fun w object w' hw hobject => ?_
  cases hobject
  refine (hput _).bind fun _ => .bind inferInstance fun event => ?_
  split
  · -- the event goes to sinks that are inside
    refine Spares.forM_of_mem fun s hs => ?_
    exact h s _ _ (e.attached hw hg hs)
  · infer_instance

theorem spares_perform (h : e.Sealed host) (hg : e.inside (.graph g)) (c : Change)
    (attributes : Attributes) : Spares e (perform host g c attributes) := by
  have hchanges : ∀ changes : List Change, Spares e (changes.forM (commit host g)) := fun changes =>
    .forM_of_mem fun c _ => h.spares_commit hg c
  unfold perform
  infer_instance

end Enclosure.Sealed

open Session

/-- At every depth the sinks inside that are no graphs leave the outsider alone. -/
def Enclosure.Tame (e : Enclosure) : Prop :=
  ∀ depth s sender event, e.inside s → (∀ g, s ≠ .graph g) →
    Spares e ((hostOfDepth depth).notify s sender event)

/-- **Then so do the graphs inside, whatever they follow.** -/
theorem Enclosure.Tame.sealed {e : Enclosure} (h : e.Tame) (depth : Nat) :
    e.Sealed (hostOfDepth depth) := by
  -- a graph that follows another one tells its sinks one level further down
  induction depth with
  | zero => exact fun _ _ _ _ => Spares.of_reads (.throw _) fun _ _ => rfl
  | succ depth ih =>
    intro s sender event hs
    cases s with
    | graph g => exact ih.spares_perform hs event.asChange .empty
    | recorder i => exact h _ _ sender event hs (by simp)
    | silent i => exact h _ _ sender event hs (by simp)
    | generator g => exact h _ _ sender event hs (by simp)

/-! ## §4. Passive sinks. -/

/-- Directly or indirectly a sink of some graphs, or one of these itself. -/
inductive World.Reaches (w : World) (sources : GraphRef → Prop) : SinkRef → Prop where
  | source {g : GraphRef} (h : sources g) : w.Reaches sources (.graph g)
  | sink {g : GraphRef} {s : SinkRef} (before : w.Reaches sources (.graph g))
      (attached : s ∈ (w.objectAt g).emitter.sinks) : w.Reaches sources s

/-- What is reached in a world stays what is reached as long as nothing is attached or
detached.  The recorders that are reached react to nothing. -/
def Enclosure.ofWorld (w₀ : World) (sources : GraphRef → Prop) (outsider : GraphRef)
    (houtside : ¬ w₀.Reaches sources (.graph outsider)) : Enclosure where
  inside := w₀.Reaches sources
  calm w := (∀ g, (w.objectAt g).emitter = (w₀.objectAt g).emitter)
    ∧ (∀ i, w₀.Reaches sources (.recorder i) → (w.recorders.get i).reactions = [])
    ∧ w.trees = w₀.trees ∧ w.bindings = w₀.bindings
  outsider := outsider
  outside := houtside
  attached := by
    intro w g s hw hg hs
    rw [hw.1 g] at hs
    exact .sink hg hs
  put := by
    intro w g graph hw _
    refine ⟨fun x => ?_, hw.2⟩
    rw [← hw.1 x]
    by_cases hx : g = x
    · subst hx
      by_cases hpresent : w.HasGraph g
      · rw [World.objectAt_put_self hpresent]
      · show ((w.graphs.set g.index _).get g.index).emitter = _
        rw [Heap.set_of_size_le (Nat.le_of_not_lt hpresent)]
        rfl
    · rw [World.objectAt_put_of_ne hx]
  logged := fun _ hw => hw
  marked := fun _ hw => hw

theorem Enclosure.tame_ofWorld {w₀ : World} {sources : GraphRef → Prop} {outsider : GraphRef}
    (houtside : ¬ w₀.Reaches sources (.graph outsider)) :
    (ofWorld w₀ sources outsider houtside).Tame := by
  intro depth s sender event hs hgraph
  cases depth with
  | zero => exact Spares.of_reads (.throw _) fun _ _ => rfl
  | succ depth =>
    cases s with
    | graph g => exact absurd rfl (hgraph g)
    | silent i => exact Spares.of_reads (.pure ()) fun _ _ => rfl
    | generator g => exact Spares.of_reads (.throw _) fun _ _ => rfl
    | recorder i =>
      -- the recorder writes down the event, and that is all
      have hexec := fun (w : World) (hw : (ofWorld w₀ sources outsider houtside).calm w) =>
        passive_recorder depth (hw.2.1 i hs) sender event
      refine { calm := fun w hw => ?_, object := fun w hw => ?_, unheard := fun w sinks hw => ?_ }
      · rw [hexec w hw w rfl]
        exact hw
      · rw [hexec w hw w rfl]
        rfl
      · rw [hexec w hw w rfl, hexec w hw (w.reattached _ sinks) rfl]
        rfl

end EvolvingGraph
