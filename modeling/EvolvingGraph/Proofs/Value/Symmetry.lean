/-
  EvolvingGraph.Proofs.Value.Symmetry
  ───────────────────────────────────
  **THE ORDER IN WHICH TWO VALUES ARE COMPARED DOES NOT MATTER.**

  What one order of comparison answers, the other one answers too.  Where one
  order fails, so does the other one, but it may fail differently: of two
  incomparable objects the one that comes first is asked.

  Two flags that make no sense to compare count as equal if they are the same
  object, while other failures are passed on.  So flags that do not match in one
  order either do not match in the other one, or cannot be compared in it.

  Main statements:
    * `equals_symm` — the answer is the same in both orders;
    * `flagsMatch_ne_true_symm` — flags that do not match in one order match in none.
-/
import EvolvingGraph.Marking.Configuration
import EvolvingGraph.Proofs.Value.Comparison

namespace EvolvingGraph

namespace Value

/-! ## §1. Values that are compared as a whole. -/

theorem isSameObject_comm (v w : Value) : isSameObject v w = isSameObject w v := by
  cases v <;> cases w <;> first | rfl | exact Bool.beq_comm

theorem scalarEquals_comm (v w : Value) : scalarEquals v w = scalarEquals w v := by
  cases v <;> cases w <;> first | rfl | exact Bool.beq_comm

/-- Two tuples, two lists and two edges are compared by their parts. -/
def comparesParts : Value → Value → Bool
  | .tuple _, .tuple _ | .list _, .list _ | .edge .., .edge .. => true
  | _, _ => false

theorem equals_symm_of_whole {v w : Value} {same : Bool} (hwhole : comparesParts v w = false)
    (h : equals v w = .ok same) : equals w v = .ok same := by
  unfold equals at h
  split at h
  · cases h
  · next hv =>
    split at h
    · cases h
    · cases hwhole
    · cases hwhole
    · cases hwhole
    · next hw _ _ _ =>
      cases h
      rw [scalarEquals_comm, equals]
      · exact hw
      · exact hv
      all_goals
        intros
        subst_vars
        cases hwhole

/-! ## §2. All values. -/

mutual

/-- **What one order of comparison answers, the other one answers too.** -/
theorem equals_symm : ∀ (v w : Value) {same : Bool},
    equals v w = .ok same → equals w v = .ok same
  | .tuple vs, w, same, h => by
    cases w with
    | tuple ws =>
      rw [equals_tuple] at h ⊢
      rcases hitems : itemsEqual vs ws with fault | common
      · rw [hitems] at h
        cases h
      · rw [hitems] at h
        rw [itemsEqual_symm vs ws hitems, Bool.beq_comm (a := ws.length)]
        exact h
    | _ => exact equals_symm_of_whole rfl h
  | .list vs, w, same, h => by
    cases w with
    | list ws =>
      rw [equals] at h ⊢
      by_cases hlength : vs.length = ws.length
      · rw [if_pos hlength] at h
        rw [if_pos hlength.symm]
        exact itemsEqual_symm vs ws h
      · rw [if_neg hlength] at h
        rw [if_neg (Ne.symm hlength)]
        exact h
    | _ => exact equals_symm_of_whole rfl h
  | .edge g id s t, w, same, h => by
    cases w with
    | edge g' id' s' t' =>
      rw [equals_edge] at h ⊢
      by_cases hg : g = g'
      · rw [if_pos hg] at h
        rw [if_pos hg.symm]
        exact equals_symm id id' h
      · rw [if_neg hg] at h
        rw [if_neg (Ne.symm hg)]
        exact h
    | _ => exact equals_symm_of_whole rfl h
  | .null, _, _, h | .bool _, _, _, h | .int _, _, _, h | .float _, _, _, h | .nan _, _, _, h
  | .str _, _, _, h | .incomparable _ _, _, _, h => equals_symm_of_whole rfl h

/-- Items are compared in pairs, and the pairs are looked at in the same order. -/
theorem itemsEqual_symm : ∀ (vs ws : List Value) {same : Bool},
    itemsEqual vs ws = .ok same → itemsEqual ws vs = .ok same
  | [], [], _, h => h
  | [], _ :: _, _, h => by
    rw [itemsEqual] at h ⊢
    · exact h
    all_goals simp
  | _ :: _, [], _, h => by
    rw [itemsEqual] at h ⊢
    · exact h
    all_goals simp
  | v :: vs, w :: ws, same, h => by
    rw [itemsEqual] at h ⊢
    rw [isSameObject_comm w v]
    split at h
    · next hobject =>
      rw [if_pos hobject]
      exact itemsEqual_symm vs ws h
    · next hobject =>
      rw [if_neg hobject]
      rcases hhead : equals v w with fault | _ | _
      · rw [hhead] at h
        cases h
      · rw [hhead] at h
        rw [equals_symm v w hhead]
        exact h
      · rw [hhead] at h
        rw [equals_symm v w hhead]
        exact itemsEqual_symm vs ws h

end

/-! ## §3. Flags. -/

/-- What is answered about two flags is answered by comparing them, or, where that makes
no sense, by their identity. -/
theorem coincides_eq_ok_iff {v w : Value} {same : Bool} : v.coincides w = .ok same
    ↔ v.equals w = .ok same
      ∨ ∃ fault, v.equals w = .error fault ∧ fault ≠ .runtime ∧ isSameObject v w = same := by
  unfold coincides
  rcases v.equals w with (_ | _ | _) | answered <;> simp

theorem coincides_ne_true_symm {v w : Value} (h : v.coincides w = .ok false) :
    w.coincides v ≠ .ok true := by
  intro hback
  rw [coincides_eq_ok_iff] at h hback
  obtain hequal | ⟨fault, hfault, -, hobject⟩ := hback
  · -- then they are equal in the first order, too
    rw [equals_symm w v hequal] at h
    simp at h
  · obtain hunequal | ⟨_, -, -, hother⟩ := h
    · rw [equals_symm v w hunequal] at hfault
      cases hfault
    · rw [isSameObject_comm, hobject] at hother
      cases hother

end Value

theorem flagsMatch_eq_ok_iff {a b : Value} {same : Bool} :
    flagsMatch a b = .ok same ↔ a.coincides b = .ok same := by
  unfold flagsMatch
  rcases a.coincides b with fault | answered <;> simp

/-- **Flags that do not match in one order match in none.** -/
theorem flagsMatch_ne_true_symm {a b : Value} (h : flagsMatch a b = .ok false) :
    flagsMatch b a ≠ .ok true := by
  intro hback
  exact Value.coincides_ne_true_symm (flagsMatch_eq_ok_iff.1 h) (flagsMatch_eq_ok_iff.1 hback)

end EvolvingGraph
