/-
  EvolvingGraph.Proofs.Delivery.Upholding
  ───────────────────────────────────────
  **WHAT EACH CHANGE TO A GRAPH KEEPS, A WHOLE RUN KEEPS.**

  In a run, changes are made to a graph by whom it may be, and each of them sets
  off others before it is done with.  What is so of the graph is still so at the
  end, if it is kept by each single change that is of the kind of those made.
  A change that is not reported has no place in an account; of these any has to
  keep it.

  Main statements:
    * `Account.allMade_of_made` — the kind of changes, told by their events;
    * `Happens.keeps` — what each change keeps, a run keeps.
-/
import EvolvingGraph.Proofs.Delivery.Account

namespace EvolvingGraph

/-! ## §1. The changes of a run. -/

namespace Account

/-- Each change that a graph has made is of some kind. -/
def AllMade (g : GraphRef) (kind : Graph → Change → Event → Prop) : Account → Prop
  | nothing => True
  | making x before change _ event inside rest =>
    (x = g → kind before change event) ∧ inside.AllMade g kind ∧ rest.AllMade g kind
  | telling _ _ _ _ inside rest => inside.AllMade g kind ∧ rest.AllMade g kind
  | writing _ rest | cut rest => rest.AllMade g kind

variable {g : GraphRef} {kind : Graph → Change → Event → Prop} {a : Account}

@[simp] theorem allMade_append (a b : Account) :
    (a.append b).AllMade g kind ↔ a.AllMade g kind ∧ b.AllMade g kind := by
  induction a with
  | nothing => simp [append, AllMade]
  | making x before change audience event inside rest _ ih =>
    simp [append, AllMade, ih, and_assoc]
  | telling x r event result inside rest _ ih => simp [append, AllMade, ih, and_assoc]
  | writing receipt rest ih => simp [append, AllMade, ih]
  | cut rest ih => simp [append, AllMade, ih]

/-- What is so of all events that a graph has made is so of each change. -/
theorem allMade_of_made {p : Event → Prop} (h : ∀ event ∈ a.made g, p event) :
    a.AllMade g fun _ _ event => p event := by
  induction a with
  | nothing => trivial
  | making x before change audience event inside rest ih ih' =>
    simp only [made, List.mem_append] at h
    exact ⟨fun hx => h event (.inl (.inl (by simp [hx]))), ih fun e he => h e (.inl (.inr he)),
      ih' fun e he => h e (.inr he)⟩
  | telling x r event result inside rest ih ih' =>
    simp only [made, List.mem_append] at h
    exact ⟨ih fun e he => h e (.inl he), ih' fun e he => h e (.inr he)⟩
  | writing receipt rest ih => exact ih h
  | cut rest ih => exact ih h

end Account

/-! ## §2. What is kept. -/

/-- Something is so of what a graph holds. -/
def World.Upholds (w : World) (g : GraphRef) (p : Graph → Prop) : Prop :=
  w.HasGraph g ∧ p (w.objectAt g).graph

namespace World

variable {w w' : World} {g x : GraphRef} {p : Graph → Prop} {graph : Graph}

theorem upholds_put_self (h : w.HasGraph g) (hp : p graph) : (w.put g graph).Upholds g p :=
  ⟨(hasGraph_put graph).2 h, by rw [objectAt_put_self h]; exact hp⟩

theorem Upholds.put (h : w.Upholds g p) (hx : x = g → p graph) : (w.put x graph).Upholds g p := by
  by_cases hxg : x = g
  · subst hxg
    exact upholds_put_self h.1 (hx rfl)
  · refine ⟨(hasGraph_put graph).2 h.1, ?_⟩
    rw [objectAt_put_of_ne hxg]
    exact h.2

theorem Upholds.keeps (h : w.Upholds g p) (hsame : w.KeepsGraphs w') : w'.Upholds g p :=
  ⟨(hsame.graphs g h.1).1, (hsame.graphs g h.1).2 ▸ h.2⟩

end World

/-- A kind of changes keeps something: a change of this kind keeps it if it takes
effect, and any change does that reports nothing. -/
structure KeptBy (p : Graph → Prop) (kind : Graph → Change → Event → Prop) : Prop where
  takes : ∀ {graph change graph' event}, p graph → kind graph change event →
    graph.Takes change graph' event → p graph'
  idle : ∀ {graph change graph'} {r : Except Error (Option Event)}, p graph →
    graph.apply change = (graph', r) → (∀ event, r ≠ .ok (some event)) → p graph'

namespace KeptBy

variable {p : Graph → Prop} {kind : Graph → Change → Event → Prop} {w : World} {g x : GraphRef}
  {c : Change} {graph : Graph}

/-- A change that is reported: if it is made to another graph, it leaves this one alone. -/
theorem put_takes (h : KeptBy p kind) (hw : w.Upholds g p) {event : Event}
    (htakes : (w.objectAt x).graph.Takes c graph event)
    (hkind : x = g → kind (w.objectAt x).graph c event) : (w.put x graph).Upholds g p := by
  refine hw.put fun hx => ?_
  subst hx
  exact h.takes hw.2 (hkind rfl) htakes

/-- A change that is not reported. -/
theorem put_idle (h : KeptBy p kind) (hw : w.Upholds g p) {r : Except Error (Option Event)}
    (happly : (w.objectAt x).graph.apply c = (graph, r)) (hr : ∀ event, r ≠ .ok (some event)) :
    (w.put x graph).Upholds g p := by
  refine hw.put fun hx => ?_
  subst hx
  exact h.idle hw.2 happly hr

end KeptBy

/-- **What each change to a graph keeps, a whole run keeps**, however its changes are
nested and whoever makes them. -/
theorem Happens.keeps {task : Task} {w w' : World} {a : Account} {result : Except Error Unit}
    (h : Happens task w a result w') {g : GraphRef} {p : Graph → Prop}
    {kind : Graph → Change → Event → Prop} (hkept : KeptBy p kind) (hw : w.Upholds g p)
    (hall : a.AllMade g kind) : w'.Upholds g p := by
  induction h with
  | rest => exact hw
  | elsewhere before same ih => exact (ih hw hall).keeps same
  | written before receipt ih =>
    rw [Account.allMade_append] at hall
    exact ih hw hall.1
  | request before changes ih ih' =>
    rw [Account.allMade_append] at hall
    exact ih' (ih hw hall.1) hall.2
  | unchanged => exact hw
  | refused outcome => exact hkept.put_idle hw outcome (by simp)
  | idle outcome rest ih => exact ih (hkept.put_idle hw outcome (by simp)) hall
  | made takes round rest ih ih' =>
    exact ih' (ih (hkept.put_takes hw takes hall.1) hall.2.1) hall.2.2
  | broken takes round ih => exact ih (hkept.put_takes hw takes hall.1) hall.2.1
  | allTold => exact hw
  | told reaction rest ih ih' => exact ih' (ih hw hall.1) hall.2
  | failed reaction ih => exact ih hw hall.1
  | tooDeep => exact hw
  | follows planned changes ih => exact ih hw hall
  | refuses => exact hw
  | records result doings ih => exact ih hw hall
  | ignores => exact hw
  | cannot => exact hw

end EvolvingGraph
