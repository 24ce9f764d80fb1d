/-
  EvolvingGraph.Proofs.Delivery.Pairing
  ─────────────────────────────────────
  **TWO OPERATIONS IN TWO WORLDS, SIDE BY SIDE.**

  To compare two runs, worlds are related to worlds, and it is shown that the
  operations of both sides, begun in related worlds, end in related ones and
  either both fail or both come to results that belong together.  There is one
  rule for each way of putting operations together, so that the comparison
  follows the text of the operations.

  Main statements:
    * `Paired.bind` — one operation after the other;
    * `Paired.forM` — loops over lists that belong together.
-/
import EvolvingGraph.Proofs.Delivery.Commit

namespace EvolvingGraph

variable {α β γ δ : Type}

/-! ## §1. Results. -/

/-- Two operations that both failed, for reasons that belong together, or both
came to results that do. -/
inductive EndAlike (reasons : Error → Error → Prop) (results : α → β → Prop) :
    Except Error α → Except Error β → Prop where
  | ok {a : α} {b : β} (related : results a b) : EndAlike reasons results (.ok a) (.ok b)
  | error {e e' : Error} (related : reasons e e') : EndAlike reasons results (.error e) (.error e')

variable {reasons : Error → Error → Prop}

namespace EndAlike

variable {x : Except Error α} {y : Except Error β} {results results' : α → β → Prop}

theorem mono (h : EndAlike reasons results x y) (himp : ∀ a b, results a b → results' a b) :
    EndAlike reasons results' x y := by
  cases h with
  | ok hab => exact .ok (himp _ _ hab)
  | error he => exact .error he

/-- What comes to the same ends alike. -/
theorem of_eq {x : Except Error α} (hreasons : ∀ e, reasons e e) : EndAlike reasons Eq x x := by
  cases x with
  | error e => exact .error (hreasons e)
  | ok a => exact .ok rfl

theorem bind {f : α → Except Error γ} {f' : β → Except Error δ} {ends : γ → δ → Prop}
    (h : EndAlike reasons results x y)
    (hf : ∀ a b, results a b → EndAlike reasons ends (f a) (f' b)) :
    EndAlike reasons ends (x >>= f) (y >>= f') := by
  cases h with
  | ok hab => exact hf _ _ hab
  | error he => exact .error he

/-- Ends that are alike in all that there is are the same. -/
theorem eq {x y : Except Error α} (h : EndAlike Eq Eq x y) : y = x := by
  cases h with
  | ok hab => rw [hab]
  | error he => rw [he]

/-- Whatever the results are, they can be left out. -/
theorem discarded (h : EndAlike reasons results x y) :
    EndAlike reasons (fun _ _ => True) (x.map fun _ => ()) (y.map fun _ => ()) := by
  cases h with
  | ok _ => exact .ok trivial
  | error he => exact .error he

/-- Neither fails, or both do. -/
theorem ok_iff {x : Except Error Unit} {y : Except Error Unit} {results : Unit → Unit → Prop}
    (h : EndAlike reasons results x y) : y = .ok () ↔ x = .ok () := by
  cases h <;> simp

end EndAlike

/-! ## §2. Operations. -/

namespace Run

/-- From related worlds two operations lead to related worlds and end alike. -/
def Paired (related : World → World → Prop) (reasons : Error → Error → Prop) (x : Run α)
    (results : α → β → Prop) (y : Run β) : Prop :=
  ∀ w w', related w w' → related (x.exec w).2 (y.exec w').2
    ∧ EndAlike reasons results (x.exec w).1 (y.exec w').1

variable {related : World → World → Prop}

namespace Paired

variable {x : Run α} {y : Run β} {results results' : α → β → Prop}

theorem pure {a : α} {b : β} (h : results a b) :
    Paired related reasons (pure a) results (pure b) := fun _ _ hw => ⟨hw, .ok h⟩

theorem ofExcept {a : Except Error α} {b : Except Error β} (h : EndAlike reasons results a b) :
    Paired related reasons (Run.ofExcept a) results (Run.ofExcept b) := by
  intro w w' hw
  rw [exec_ofExcept, exec_ofExcept]
  exact ⟨hw, h⟩

theorem weaken (h : Paired related reasons x results y) (himp : ∀ a b, results a b → results' a b) :
    Paired related reasons x results' y :=
  fun w w' hw => ⟨(h w w' hw).1, (h w w' hw).2.mono himp⟩

/-- What does the same in every world related to some other can stand for it. -/
theorem of_exec {x' : Run α} {y' : Run β} (h : Paired related reasons x' results y')
    (hx : ∀ w w', related w w' → x.exec w = x'.exec w)
    (hy : ∀ w w', related w w' → y.exec w' = y'.exec w') :
    Paired related reasons x results y := by
  intro w w' hw
  rw [hx w w' hw, hy w w' hw]
  exact h w w' hw

/-- One operation after the other. -/
theorem bind {f : α → Run γ} {f' : β → Run δ} {ends : γ → δ → Prop}
    (h : Paired related reasons x results y)
    (hf : ∀ a b, results a b → Paired related reasons (f a) ends (f' b)) :
    Paired related reasons (x >>= f) ends (y >>= f') := by
  intro w w' hw
  obtain ⟨hafter, halike⟩ := h w w' hw
  rw [exec_bind, exec_bind]
  rcases hx : x.exec w with ⟨e | a, v⟩ <;> rcases hy : y.exec w' with ⟨e' | b, v'⟩ <;>
    rw [hx, hy] at hafter halike <;> cases halike
  · next he => exact ⟨hafter, .error he⟩
  · next hab => exact hf a b hab v v' hafter

/-- Loops over lists whose entries belong together, one by one. -/
theorem forM {together : γ → δ → Prop} {f : γ → Run Unit} {f' : δ → Run Unit} {cs : List γ}
    {ds : List δ} (h : List.Forall₂ together cs ds)
    (hf : ∀ c d, together c d → Paired related reasons (f c) (fun _ _ => True) (f' d)) :
    Paired related reasons (cs.forM f) (fun _ _ => True) (ds.forM f') := by
  induction h with
  | nil => exact .pure trivial
  | cons hcd _ ih => exact (hf _ _ hcd).bind fun _ _ _ => ih

end Paired
end Run
end EvolvingGraph
