/-
  EvolvingGraph.Proofs.Delivery.Commit
  ────────────────────────────────────
  **WHAT IT TAKES TO MAKE A CHANGE IN A WORLD.**

  A change to a graph of a session writes the graph that `Graph.apply` gives
  and hands the event, if there is one, to the sinks that were attached before.
  A request does so for each change of its plan, until one fails.  Here the
  operations are read off world by world; what sinks do stays open.

  Main statements:
    * `exec_commit` — one change: the graph, then the event; `exec_commit_takes` and
      `exec_commit_idle` say the same by what comes of it;
    * `exec_perform` — a request is its plan, change by change;
    * `forM_keeps` — what every step keeps, a loop keeps, also one that fails;
    * `GraphCall.exec_run` — all calls to a graph are requests to it.
-/
import EvolvingGraph.Proofs.Graph.Coherence
import EvolvingGraph.Marking.Tree

namespace EvolvingGraph

/-! ## §1. Graphs of a world. -/

namespace Heap

variable {α : Type}

/-- Beyond the end nothing is put anywhere. -/
theorem set_of_size_le {h : Heap α} {i : Nat} (hi : h.size ≤ i) (a : α) : h.set i a = h := by
  unfold set
  rw [List.set_eq_of_length_le hi]

/-- An object put in its own place changes nothing. -/
theorem set_get [Inhabited α] (h : Heap α) (i : Nat) : h.set i (h.get i) = h := by
  obtain hi | hi := Nat.lt_or_ge i h.cells.length
  · unfold set get
    rw [List.getD_eq_getElem?_getD, List.getElem?_eq_getElem hi, Option.getD_some,
      List.set_getElem_self]
  · exact set_of_size_le hi _

/-- What is put in two places can be put in either order. -/
theorem set_comm (h : Heap α) {i j : Nat} (hij : i ≠ j) (a b : α) :
    (h.set i a).set j b = (h.set j b).set i a := by
  unfold set
  rw [List.set_comm _ _ hij]

end Heap

theorem GraphRef.index_ne {g g' : GraphRef} (h : g ≠ g') : g.index ≠ g'.index :=
  fun hindex => h (by cases g; cases g'; exact congrArg _ hindex)

namespace World

/-- The graph object at a reference. -/
def objectAt (w : World) (g : GraphRef) : GraphObject := w.graphs.get g.index

/-- The world with another graph at a reference. -/
def put (w : World) (g : GraphRef) (graph : Graph) : World :=
  { w with graphs := w.graphs.set g.index { w.graphs.get g.index with graph := graph } }

/-- Whether a reference points to a graph of the world. -/
def HasGraph (w : World) (g : GraphRef) : Prop := g.index < w.graphs.size

variable {w : World} {g : GraphRef}

theorem objectAt_put_self (h : w.HasGraph g) (graph : Graph) :
    (w.put g graph).objectAt g = { w.objectAt g with graph := graph } := Heap.get_set_self h _

theorem objectAt_put_of_ne {g' : GraphRef} (h : g ≠ g') (graph : Graph) :
    (w.put g graph).objectAt g' = w.objectAt g' := Heap.get_set_of_ne (GraphRef.index_ne h) _

theorem put_self (w : World) (g : GraphRef) : w.put g (w.objectAt g).graph = w := by
  show ({ w with graphs := w.graphs.set g.index (w.graphs.get g.index) } : World) = w
  rw [Heap.set_get]

theorem hasGraph_put {g' : GraphRef} (graph : Graph) :
    (w.put g graph).HasGraph g' ↔ w.HasGraph g' := by
  simp [HasGraph, put, Heap.set, Heap.size]

end World

namespace Run

variable {α β : Type}

@[simp] theorem exec_graphObject (g : GraphRef) (w : World) :
    exec (World.graphObject g) w = (.ok (w.objectAt g), w) := rfl

@[simp] theorem exec_graph (g : GraphRef) (w : World) :
    exec (World.graph g) w = (.ok (w.objectAt g).graph, w) := rfl

@[simp] theorem exec_setGraph (g : GraphRef) (graph : Graph) (w : World) :
    exec (World.setGraph g graph) w = (.ok ⟨⟩, w.put g graph) := rfl

@[simp] theorem exec_tree (t : TreeRef) (w : World) :
    exec (World.tree t) w = (.ok (w.trees.get t.index), w) := rfl

@[simp] theorem exec_note (entry : LogEntry) (w : World) :
    exec (World.note entry) w = (.ok ⟨⟩, { w with log := w.log ++ [entry] }) := rfl

@[simp] theorem exec_map (f : α → β) (operation : Run α) (w : World) :
    exec (f <$> operation) w = match exec operation w with
      | (.ok a, w') => (.ok (f a), w')
      | (.error e, w') => (.error e, w') := by
  rw [map_eq_pure_bind, exec_bind]
  rcases exec operation w with ⟨_ | _, _⟩ <;> rfl

theorem exec_discard (operation : Run α) (w : World) :
    exec (discard operation : Run PUnit) w = match exec operation w with
      | (.ok _, w') => (.ok ⟨⟩, w')
      | (.error e, w') => (.error e, w') := by
  show exec (Function.const α PUnit.unit <$> operation : Run PUnit) w = _
  rw [exec_map]

/-- What is done in two steps succeeds if both do, one after the other. -/
theorem exec_bind_eq_ok_iff {operation : Run α} {f : α → Run β} {b : β} {w w' : World} :
    exec (operation >>= f) w = (.ok b, w')
      ↔ ∃ a w₁, exec operation w = (.ok a, w₁) ∧ exec (f a) w₁ = (.ok b, w') := by
  rw [exec_bind]
  rcases exec operation w with ⟨_ | a, w₁⟩ <;> simp

theorem exec_forM_cons (f : α → Run Unit) (x : α) (xs : List α) (w : World) :
    exec ((x :: xs).forM f) w = match exec (f x) w with
      | (.ok _, w') => exec (xs.forM f) w'
      | (.error e, w') => (.error e, w') := by
  show exec (f x >>= fun _ => xs.forM f) w = _
  rw [exec_bind]
  rcases exec (f x) w with ⟨_ | _, _⟩ <;> rfl

theorem exec_forM_append {f : α → Run Unit} {xs : List α} {w w' : World}
    (h : exec (xs.forM f) w = (.ok (), w')) (ys : List α) :
    exec ((xs ++ ys).forM f) w = exec (ys.forM f) w' := by
  have hsplit : (xs ++ ys).forM f = xs.forM f >>= fun _ => ys.forM f := List.forM_append
  rw [hsplit, exec_bind, h]

/-- What every step of a loop keeps, the loop keeps, whether it fails or not. -/
theorem forM_keeps {kept : World → Prop} {f : α → Run Unit} {xs : List α}
    (hstep : ∀ x ∈ xs, ∀ w, kept w → kept (exec (f x) w).2) {w : World} (h : kept w) :
    kept (exec (xs.forM f) w).2 := by
  induction xs generalizing w with
  | nil => exact h
  | cons x xs ih =>
    have hx := hstep x List.mem_cons_self w h
    rw [exec_forM_cons]
    rcases hexec : exec (f x) w with ⟨_ | _, w'⟩
    · rw [hexec] at hx
      exact hx
    · rw [hexec] at hx
      exact ih (fun y hy => hstep y (List.mem_cons_of_mem _ hy)) hx

/-- A loop whose steps do not fail does not fail; what they keep, it keeps. -/
theorem exec_forM_ok {kept : World → Prop} {f : α → Run Unit} {xs : List α}
    (hstep : ∀ x ∈ xs, ∀ w, kept w → ∃ w', exec (f x) w = (.ok (), w') ∧ kept w') {w : World}
    (h : kept w) : ∃ w', exec (xs.forM f) w = (.ok (), w') ∧ kept w' := by
  induction xs generalizing w with
  | nil => exact ⟨w, rfl, h⟩
  | cons x xs ih =>
    obtain ⟨w', hx, hw'⟩ := hstep x List.mem_cons_self w h
    obtain ⟨w'', hxs, hw''⟩ := ih (fun y hy => hstep y (List.mem_cons_of_mem _ hy)) hw'
    refine ⟨w'', ?_, hw''⟩
    rw [exec_forM_cons, hx]
    exact hxs

/-- An operation that changes nothing. -/
def Reads (operation : Run α) : Prop := ∀ w, (exec operation w).2 = w

namespace Reads

theorem pure (a : α) : Reads (pure a) := fun _ => rfl

theorem throw (e : Error) : Reads (throw e : Run α) := fun _ => rfl

theorem ofExcept (result : Except Error α) : Reads (ofExcept result) := by
  intro w
  rw [exec_ofExcept]

theorem graph (g : GraphRef) : Reads (World.graph g) := fun _ => rfl

theorem tree (t : TreeRef) : Reads (World.tree t) := fun _ => rfl

theorem bind {operation : Run α} {f : α → Run β} (h : Reads operation) (hf : ∀ a, Reads (f a)) :
    Reads (operation >>= f) := by
  intro w
  have hw := h w
  rw [exec_bind]
  rcases hexec : exec operation w with ⟨e | a, w'⟩
  · rw [hexec] at hw
    exact hw
  · rw [hexec] at hw
    exact (hf a w').trans hw

end Reads

end Run

/-! ## §2. Changes and requests. -/

/-- **A change writes the graph first; its event goes to those attached before.** -/
theorem exec_commit (host : Host) (g : GraphRef) (c : Change) (w : World) :
    (commit host g c).exec w = match (w.objectAt g).graph.apply c with
      | (graph, .error e) => (.error e, w.put g graph)
      | (graph, .ok none) => (.ok (), w.put g graph)
      | (graph, .ok (some event)) =>
        (emit host (w.objectAt g).emitter event).exec (w.put g graph) := by
  unfold commit
  rcases happly : (w.objectAt g).graph.apply c with ⟨graph, _ | _ | event⟩ <;>
    simp [happly]

/-- A change that takes effect is made and emitted. -/
theorem exec_commit_takes {host : Host} {g : GraphRef} {w : World} {c : Change} {graph' : Graph}
    {event : Event} (h : (w.objectAt g).graph.Takes c graph' event) :
    (commit host g c).exec w = (emit host (w.objectAt g).emitter event).exec (w.put g graph') := by
  rw [exec_commit, Graph.apply_eq_some_iff.2 h]

/-- A change that reports nothing leaves the world as it is, if it leaves the graph. -/
theorem exec_commit_idle {host : Host} {g : GraphRef} {w : World} {c : Change}
    (hsame : ((w.objectAt g).graph.apply c).1 = (w.objectAt g).graph)
    (hidle : ∀ event, ((w.objectAt g).graph.apply c).2 ≠ .ok (some event)) :
    ((commit host g c).exec w).2 = w := by
  rw [exec_commit]
  rcases happly : (w.objectAt g).graph.apply c with ⟨graph, _ | _ | event⟩
  · rw [happly] at hsame
    subst hsame
    exact World.put_self w g
  · rw [happly] at hsame
    subst hsame
    exact World.put_self w g
  · rw [happly] at hidle
    exact absurd rfl (hidle event)

/-- A request that is accepted and planned is made change by change. -/
theorem exec_perform (host : Host) (g : GraphRef) (c : Change) (attributes : Attributes)
    (w : World) :
    (perform host g c attributes).exec w
      = if c.accepts attributes then
          match (w.objectAt g).graph.plan c attributes with
          | .error e => (.error e, w)
          | .ok changes => (changes.forM (commit host g)).exec w
        else (.error .badArgument, w) := by
  unfold perform
  cases hacc : c.accepts attributes with
  | false => simp
  | true =>
    cases hplan : (w.objectAt g).graph.plan c attributes <;> simp [hplan]

theorem accepts_empty (c : Change) : c.accepts .empty = true := rfl

/-! ## §3. Calls. -/

/-- What can be asked of a graph that changes it: a request, to follow an
event, or to write an attribute through an edge view. -/
inductive GraphCall where
  | request (c : Change) (attributes : Attributes)
  | event (e : Event)
  | write (id source target name value : Value)

/-- Carry out a call. -/
def GraphCall.run (host : Host) (g : GraphRef) : GraphCall → Run Unit
  | .request c attributes => perform host g c attributes
  | .event e => follow host g e
  | .write id source target name value => setOnView host ⟨g, id, source, target⟩ name value

/-- Every call is a request that is accepted, or nothing but its failure. -/
theorem GraphCall.exec_run (host : Host) (g : GraphRef) (call : GraphCall) (w : World) :
    (∃ error, (call.run host g).exec w = (.error error, w))
      ∨ ∃ c attributes changes, (w.objectAt g).graph.plan c attributes = .ok changes
        ∧ (call.run host g).exec w = (changes.forM (commit host g)).exec w := by
  -- requests and events are performed alike, the first with attributes
  have hperform : ∀ c attributes,
      (∃ error, (perform host g c attributes).exec w = (.error error, w))
      ∨ ∃ changes, (w.objectAt g).graph.plan c attributes = .ok changes
        ∧ (perform host g c attributes).exec w = (changes.forM (commit host g)).exec w := by
    intro c attributes
    rw [exec_perform]
    split
    · cases hplan : (w.objectAt g).graph.plan c attributes with
      | error e => exact .inl ⟨e, rfl⟩
      | ok changes => exact .inr ⟨changes, rfl, rfl⟩
    · exact .inl ⟨.badArgument, rfl⟩
  cases call with
  | request c attributes =>
    obtain h | ⟨changes, hplan, h⟩ := hperform c attributes
    · exact .inl h
    · exact .inr ⟨c, attributes, changes, hplan, h⟩
  | event e =>
    obtain h | ⟨changes, hplan, h⟩ := hperform e.asChange .empty
    · exact .inl h
    · exact .inr ⟨e.asChange, .empty, changes, hplan, h⟩
  | write id source target name value =>
    refine .inr ⟨.setAttribute .edge id name value, .empty, [.setAttribute .edge id name value],
      rfl, ?_⟩
    rw [Run.exec_forM_cons]
    unfold run setOnView
    rcases (commit host g (.setAttribute .edge id name value)).exec w with ⟨_ | _, _⟩ <;> rfl

end EvolvingGraph
