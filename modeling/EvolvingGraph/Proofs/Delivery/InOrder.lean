/-
  EvolvingGraph.Proofs.Delivery.InOrder
  ─────────────────────────────────────
  **WHICH SINKS HEAR OF CHANGES IN THE ORDER IN WHICH THEY WERE MADE.**

  A change that is made while a sink is told of another one is reported at once,
  to all sinks; those that come later in the list then hear of the second change
  first.  A sink hears of all changes in their order as long as none of those
  before it makes one when it is told, and none of them fails.  What the sink
  itself makes of an event, and what those after it do, does not matter.

  Main statements:
    * `Happens.inOrder` — what is preserved, task by task;
    * `Happens.received_eq_made` — such a sink hears of every change, in order.
-/
import EvolvingGraph.Proofs.Delivery.Account

namespace EvolvingGraph

/-! ## §1. Undisturbed sinks. -/

namespace Account

/-- In a round, the sinks before a given one do not fail, and no change to the
graph is made while they are told. -/
def Clear (g : GraphRef) (s : SinkRef) : Account → Prop
  | telling _ r _ result inside rest =>
    r = s ∨ (result = .ok () ∧ inside.made g = [] ∧ rest.Clear g s)
  | cut _ => False
  | nothing | making .. | writing .. => True

/-- Whenever a graph makes a change, a sink is attached to it, once, and the sinks
before it neither fail nor change the graph. -/
def Undisturbed (g : GraphRef) (s : SinkRef) : Account → Prop
  | nothing => True
  | making x _ _ audience _ inside rest =>
    (x = g → s ∈ audience ∧ audience.Nodup ∧ inside.Clear g s)
      ∧ inside.Undisturbed g s ∧ rest.Undisturbed g s
  | telling _ _ _ _ inside rest => inside.Undisturbed g s ∧ rest.Undisturbed g s
  | writing _ rest | cut rest => rest.Undisturbed g s

variable {g : GraphRef} {s : SinkRef}

@[simp] theorem undisturbed_append (a b : Account) :
    (a.append b).Undisturbed g s ↔ a.Undisturbed g s ∧ b.Undisturbed g s := by
  induction a with
  | nothing => simp [append, Undisturbed]
  | making x before change audience event inside rest _ ih =>
    simp [append, Undisturbed, ih, and_assoc]
  | telling x r event result inside rest _ ih => simp [append, Undisturbed, ih, and_assoc]
  | writing receipt rest ih => simp [append, Undisturbed, ih]
  | cut rest ih => simp [append, Undisturbed, ih]

end Account

/-! ## §2. The order of events. -/

/-- What a sink has heard when a task is done: the events of all changes that
were made; in a round that is to reach it, the event of the round before them. -/
def InOrder (g : GraphRef) (s : SinkRef) (a : Account) : Task → Prop
  | .round x _ event sinks =>
    ((x ≠ g ∨ s ∉ sinks) → a.received g s = a.made g)
      ∧ (x = g → s ∈ sinks → sinks.Nodup → a.Clear g s → a.received g s = event :: a.made g)
  | _ => a.received g s = a.made g

variable {g : GraphRef} {s : SinkRef}

/-- The invariant, by induction on what happens. -/
theorem Happens.inOrder {task : Task} {w w' : World} {a : Account} {result : Except Error Unit}
    (h : Happens task w a result w') (hs : a.Undisturbed g s) : InOrder g s a task := by
  induction h with
  | rest => rfl
  | elsewhere before same ih => exact ih hs
  | written before receipt ih =>
    rw [Account.undisturbed_append] at hs
    have hbefore := ih hs.1
    simp only [InOrder] at hbefore ⊢
    rw [Account.received_append, Account.made_append, hbefore]
    rfl
  | request before changes ih ih' =>
    rw [Account.undisturbed_append] at hs
    have hbefore := ih hs.1
    have hchanges := ih' hs.2
    simp only [InOrder] at hbefore hchanges ⊢
    rw [Account.received_append, Account.made_append, hbefore, hchanges]
  | unchanged => rfl
  | refused => rfl
  | idle outcome rest ih => exact ih hs
  | @made w v w' x c cs graph event inside a result takes round rest ih ih' =>
    obtain ⟨hround, hrest⟩ := And.intro (ih hs.2.1) (ih' hs.2.2)
    simp only [InOrder, Account.received, Account.made] at hround hrest ⊢
    by_cases hx : x = g
    · obtain ⟨hmem, hnodup, hclear⟩ := hs.1 hx
      simp [hx, hround.2 hx hmem hnodup hclear, hrest]
    · simp [hx, hround.1 (.inl hx), hrest]
  | @broken w v x c cs graph event inside e takes round ih =>
    have hround := ih hs.2.1
    simp only [InOrder, Account.received, Account.made] at hround ⊢
    by_cases hx : x = g
    · obtain ⟨hmem, hnodup, hclear⟩ := hs.1 hx
      simp [hx, hround.2 hx hmem hnodup hclear]
    · simp [hx, hround.1 (.inl hx)]
  | allTold => exact ⟨fun _ => rfl, fun _ hmem => absurd hmem List.not_mem_nil⟩
  | @told w v w' x sender event r sinks inside a result reaction rest ih ih' =>
    obtain ⟨hreaction, hrest⟩ := And.intro (ih hs.1) (ih' hs.2)
    simp only [InOrder, Account.received, Account.made] at hreaction hrest ⊢
    constructor
    · intro hnot
      have hhere : ¬(x = g ∧ r = s) := by
        rintro ⟨rfl, rfl⟩
        simp at hnot
      have hlater : x ≠ g ∨ s ∉ sinks :=
        hnot.imp_right fun h hmem => h (List.mem_cons_of_mem _ hmem)
      simp [hhere, hreaction, hrest.1 hlater]
    · intro hx hmem hnodup hclear
      obtain ⟨hfresh, hnodup'⟩ := List.nodup_cons.1 hnodup
      by_cases hr : r = s
      · -- the sink is told here, and not once more
        subst hr
        simp [hx, hreaction, hrest.1 (.inr hfresh)]
      · obtain ⟨-, hquiet, hclear'⟩ := hclear.resolve_left hr
        have hlater := hrest.2 hx ((List.mem_cons.1 hmem).resolve_left (Ne.symm hr)) hnodup' hclear'
        simp [hr, hreaction, hquiet, hlater]
  | @failed w v x sender event r sinks inside e reaction ih =>
    have hreaction := ih hs.1
    simp only [InOrder, Account.received, Account.made] at hreaction ⊢
    constructor
    · intro hnot
      have hhere : ¬(x = g ∧ r = s) := by
        rintro ⟨rfl, rfl⟩
        simp at hnot
      simp [hhere, hreaction]
    · intro hx hmem hnodup hclear
      -- only the sink itself may fail
      obtain hr | ⟨hresult, -⟩ := hclear
      · simp [hx, hr, hreaction]
      · exact absurd hresult (by simp)
  | tooDeep => exact ⟨fun _ => rfl, fun _ _ _ hclear => hclear.elim⟩
  | follows planned changes ih => exact ih hs
  | refuses => rfl
  | records result doings ih => exact ih hs
  | ignores => rfl
  | cannot => rfl

/-- **A sink that is always attached, behind none that fails or changes the graph,
hears of every change, in the order in which the changes are made.** -/
theorem Happens.received_eq_made {w w' : World} {a : Account} {result : Except Error Unit}
    (h : Happens .anything w a result w') (hs : a.Undisturbed g s) :
    a.received g s = a.made g := h.inOrder hs

end EvolvingGraph
