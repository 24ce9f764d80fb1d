/-
  EvolvingGraph.Proofs.Session.Configurations
  ───────────────────────────────────────────
  **THE CONFIGURATIONS OF A SESSION'S TREES ARE ALWAYS VALID.**

  A tree is checked when it is made and at each assignment, and nothing else
  changes its configuration.  So in every world of a session all trees are
  configured validly: at whatever depth the assignments are made, by the session
  itself, by sinks, scripts and builders, and whether they are accepted or not.

  Who assigns learns what came of it.  A step that fails, that answers "no" or that
  leaves a line in the log has changed no tree.

  Main statements:
    * `wellConfigured_hostOfDepth` — whatever a session does, its trees stay valid;
    * `configurations_always_valid` — all trees of a session are valid, and what is
      refused changes none.
-/
import EvolvingGraph.Proofs.Session.Keeping

namespace EvolvingGraph

open Session Run

/-! ## §1. Valid trees. -/

/-- All trees of a world are configured validly. -/
def WellConfigured (w : World) : Prop := ∀ tree ∈ w.trees.cells, tree.Valid Builder.Callable

namespace WellConfigured

/-- What stands for a tree that is not there is valid, too. -/
theorem get {w : World} (hw : WellConfigured w) (t : TreeRef) :
    (w.trees.get t.index).Valid Builder.Callable := by
  unfold Heap.get
  rw [List.getD_eq_getElem?_getD]
  cases hcell : w.trees.cells[t.index]? with
  | some tree => exact hw tree (List.mem_of_getElem? hcell)
  | none =>
    have hmade : SpanningTree.make none .standard .nothing = .ok (default : Tree) := rfl
    exact SpanningTree.valid_of_make (fun b hb => (by cases hb)) hmade

instance : LastingUnassigned WellConfigured where
  elsewhere := fun hw _ _ htrees => by
    unfold WellConfigured
    rw [htrees]
    exact hw
  written := fun _ hw => hw

instance : KeepsAssignments WellConfigured where
  assign := fun {w} t {a} hw ha => by
    obtain ⟨tree, haccepted, hassign⟩ | ⟨hrefused, -⟩ := w.assign_cases t a
    · rw [hassign]
      intro tree' htree'
      obtain hold | rfl := List.mem_or_eq_of_mem_set htree'
      · exact hw tree' hold
      · exact (hw.get t).assign ha haccepted
    · unfold WellConfigured
      rw [w.trees_assign t hrefused]
      exact hw
  make := fun {w _ _ _ tree} hw hoffered hmade => by
    intro tree' htree'
    obtain hold | hnew := List.mem_append.1 htree'
    · exact hw tree' hold
    · rw [List.mem_singleton.1 hnew]
      exact SpanningTree.valid_of_make hoffered hmade

instance (g : GeneratorRef) (f : Generator → Generator) :
    Keeps WellConfigured (World.modifyGenerator g f) := ⟨fun _ hw => hw⟩

instance (entry : LogEntry) : Keeps WellConfigured (World.note entry) := ⟨fun _ hw => hw⟩

instance (g : GraphRef) (graph : Graph) : Keeps WellConfigured (World.setGraph g graph) :=
  ⟨fun _ hw => hw⟩

end WellConfigured

/-- **Whatever the host of a session does, however deep its steps are nested, leaves all
trees configured validly.** -/
instance wellConfigured_hostOfDepth (depth : Nat) : Sustained WellConfigured (hostOfDepth depth) :=
  sustained_hostOfDepth (fun _ : Unit => WellConfigured)
    (fun _ h _ _ => have := h (); inferInstance) depth ()

/-! ## §2. Assignments that are refused. -/

/-- The steps that assign something to a tree. -/
def Step.isAssignment : Step → Bool
  | .tree _ request =>
    match request with
    | .assign .. | .assignGraph _ | .setFlagAttribute _ | .setFlagOn _ | .setFlagOff _ => true
    | _ => false
  | .assignBuilder .. => true
  | _ => false

/-- What assigns something tells whether it was refused: then it fails, answers "no" or
leaves a line in the log. -/
def Refused (answer : Except Error Answer) (w w' : World) : Prop :=
  (∃ e, answer = .error e) ∨ answer = .ok (.value (.bool false)) ∨ w'.log ≠ w.log

/-- The trees and the log are as they were. -/
def Unassigned (w w' : World) : Prop := w'.trees = w.trees ∧ w'.log = w.log

/-- An operation that changes trees only where it succeeds, with one of some answers, and
leaves the log as it was. -/
def Honest {α : Type} (accepted : α → Prop) (x : Run α) : Prop :=
  ∀ w, (x.exec w).2.trees ≠ w.trees →
    (∃ a, (x.exec w).1 = .ok a ∧ accepted a) ∧ (x.exec w).2.log = w.log

namespace Honest

variable {α β : Type} {accepted : α → Prop}

/-- What is done before assigns nothing. -/
theorem bind {x : Run β} {f : β → Run α} (hx : ∀ w, Keeps (Unassigned w) x)
    (hf : ∀ b, Honest accepted (f b)) : Honest accepted (x >>= f) := by
  intro w hchanged
  obtain ⟨htrees, hlog⟩ := (hx w).after w ⟨rfl, rfl⟩
  rw [exec_bind] at hchanged ⊢
  rcases hexec : x.exec w with ⟨e | b, w'⟩ <;> rw [hexec] at htrees hlog hchanged
  · exact absurd htrees hchanged
  · have hhonest := hf b w'
    rw [htrees, hlog] at hhonest
    exact hhonest hchanged

theorem throw (e : Error) : Honest accepted (throw e) := fun _ hchanged => absurd rfl hchanged

theorem silently {x : Run Unit} (h : Honest (fun _ => True) x) :
    Honest (· ≠ .value (.bool false)) (silently x) := by
  intro w hchanged
  unfold Session.silently at hchanged ⊢
  have hsame : (exec (x >>= fun _ => pure Answer.nothing) w).2 = (x.exec w).2 := by
    rw [exec_bind]
    rcases x.exec w with ⟨_ | _, _⟩ <;> rfl
  rw [hsame] at hchanged ⊢
  obtain ⟨⟨_, hok, -⟩, hlog⟩ := h w hchanged
  refine ⟨⟨.nothing, ?_, by simp [Answer.nothing]⟩, hlog⟩
  rw [exec_bind]
  rcases hexec : x.exec w with ⟨_ | _, _⟩ <;> rw [hexec] at hok
  · cases hok
  · rfl

/-- An assignment that is refused changes no tree, and says so. -/
theorem of_assign {x : Run α} (t : TreeRef) (a : Assignment (Builder Step)) {f : Bool → α}
    (haccepted : accepted (f true))
    (hx : ∀ w, x.exec w = ((w.assign t a).1.map f, (w.assign t a).2)) : Honest accepted x := by
  intro w hchanged
  rw [hx] at hchanged ⊢
  obtain ⟨tree, -, hassign⟩ | ⟨hrefused, -⟩ := w.assign_cases t a
  · rw [hassign]
    exact ⟨⟨f true, rfl, haccepted⟩, rfl⟩
  · exact absurd (w.trees_assign t hrefused) hchanged

end Honest

instance (w : World) (count : Nat) : Keeps (Unassigned w) (World.reserveMarks count) :=
  ⟨fun _ hsame => hsame⟩

theorem honest_assignProperty (t : TreeRef) (property : TreeProperty) (v : Value) :
    Honest (fun _ => True) (assignProperty t property v) :=
  .of_assign t (property.assignment v) trivial fun w => exec_assignProperty t v w property

theorem honest_assignGraph (t : TreeRef) (graph : Option GraphRef) :
    Honest (fun _ => True) (do World.setTree t { ← World.tree t with graph } : Run Unit) :=
  .of_assign t (.graph graph) trivial fun w => exec_assignGraph t w graph

theorem honest_answer {x : Run Bool} (t : TreeRef) (a : Assignment (Builder Step))
    (hx : ∀ w, x.exec w = w.assign t a) :
    Honest (· ≠ .value (.bool false)) (do answer (.bool (← x))) := by
  refine .of_assign t a (f := fun accepted => Answer.value (.bool accepted)) (by simp) fun w => ?_
  rw [exec_bind, hx]
  rcases w.assign t a with ⟨_ | _, _⟩ <;> rfl

/-- Whoever assigns something to a tree learns what comes of it. -/
theorem honest_askTree {host : Host} {on : Option String} {request : TreeRequest}
    (h : (Step.tree on request).isAssignment) (t : TreeRef) :
    Honest (· ≠ .value (.bool false)) (askTree host t request) := by
  cases request with
  | assign property v =>
    exact .silently (.bind (fun w => inferInstance) (honest_assignProperty t property))
  | setFlagAttribute v =>
    exact .silently (.bind (fun w => inferInstance) (honest_assignProperty t .flagAttribute))
  | assignGraph name =>
    cases name with
    | none => exact .silently (honest_assignGraph t none)
    | some name => exact .silently (.bind (fun w => inferInstance) (honest_assignGraph t))
  | setFlagOn v =>
    exact .bind (fun w => inferInstance) fun v =>
      honest_answer t (.flagOn v) (exec_assignFlagOn t v)
  | setFlagOff v =>
    exact .bind (fun w => inferInstance) fun v =>
      honest_answer t (.flagOff v) (exec_assignFlagOff t v)
  | _ => cases h

theorem honest_playStep {step : Step} (h : step.isAssignment) (host : Host)
    (self : Option Object) : Honest (· ≠ .value (.bool false)) (playStep host self step) := by
  unfold playStep
  cases step with
  | tree on request =>
    refine .bind (fun w => inferInstance) fun object => ?_
    split
    · exact honest_askTree h _
    · exact .throw _
  | assignBuilder on builder =>
    refine .silently (.bind (fun w => inferInstance) fun object => ?_)
    split
    · next t =>
      exact .bind (fun w => inferInstance) fun offered =>
        .of_assign t (.builder offered) trivial fun w => exec_assignBuilder t w offered
    · exact .throw _
  | _ => cases h

/-- **What is refused changes no tree.** -/
theorem trees_of_refused {step : Step} (h : step.isAssignment) (host : Host)
    (self : Option Object) {w : World}
    (hrefused : Refused ((playStep host self step).exec w).1 w
      ((playStep host self step).exec w).2) :
    ((playStep host self step).exec w).2.trees = w.trees := by
  by_contra hchanged
  obtain ⟨⟨answer, hok, haccepted⟩, hlog⟩ := honest_playStep h host self w hchanged
  obtain ⟨e, herror⟩ | hno | hline := hrefused
  · rw [hok] at herror
    cases herror
  · rw [hok] at hno
    exact haccepted (Except.ok.inj hno)
  · exact hline hlog

/-! ## §3. The trees of a session. -/

/-- **In every world of a session all trees are configured validly; so it is after each
step that is played in the midst of others; and an assignment that is refused leaves all
configurations as they were.** -/
theorem configurations_always_valid (depth : Nat) :
    (∀ steps, WellConfigured (afterSteps (hostOfDepth depth) steps .initial))
    ∧ (∀ self step w, WellConfigured w →
      WellConfigured ((playStep (hostOfDepth depth) self step).exec w).2)
    ∧ ∀ host self step w, step.isAssignment →
      Refused ((playStep host self step).exec w).1 w ((playStep host self step).exec w).2 →
      ((playStep host self step).exec w).2.trees = w.trees := by
  refine ⟨fun steps => ?_, fun self step w hw => ?_, fun host self step w h => ?_⟩
  · refine keeps_afterSteps steps fun tree htree => ?_
    cases htree
  · exact Keeps.after w hw
  · exact trees_of_refused h host self

namespace WellConfigured

/-- A tree about which nothing is said, and then a flag that cannot be compared. -/
def steps : List Step :=
  [.newTree "t" none ⟨none, none, none, none, none, none⟩ none none,
    .tree (some "t") (.setFlagOn (.value (.incomparable "x" .type)))]

/-- The same object as the other flag, and one that fails to be compared with it. -/
def setFlagOff (name : String) (fault : ComparisonFault) : Step :=
  .tree (some "t") (.setFlagOff (.value (.incomparable name fault)))

end WellConfigured

open WellConfigured

/-- A flag that cannot be compared is recognised as the other flag, and ignored; another
one fails. -/
theorem configurations_always_valid_incomparable :
    WellConfigured (afterSteps (hostOfDepth 1) steps .initial)
    ∧ ((playStep (hostOfDepth 1) none (setFlagOff "x" .type)).exec
        (afterSteps (hostOfDepth 1) steps .initial)).1 = .ok (.value (.bool false))
    ∧ ((playStep (hostOfDepth 1) none (setFlagOff "x" .type)).exec
        (afterSteps (hostOfDepth 1) steps .initial)).2.trees
      = (afterSteps (hostOfDepth 1) steps .initial).trees
    ∧ ((playStep (hostOfDepth 1) none (setFlagOff "y" .runtime)).exec
        (afterSteps (hostOfDepth 1) steps .initial)).1 = .error (.comparison .runtime)
    ∧ ((playStep (hostOfDepth 1) none (setFlagOff "y" .runtime)).exec
        (afterSteps (hostOfDepth 1) steps .initial)).2.trees
      = (afterSteps (hostOfDepth 1) steps .initial).trees := by
  obtain ⟨hvalid, -, hrefused⟩ := configurations_always_valid 1
  exact ⟨hvalid steps, rfl, hrefused _ none _ _ rfl (.inr (.inl rfl)), rfl,
    hrefused _ none _ _ rfl (.inl ⟨_, rfl⟩)⟩

end EvolvingGraph
