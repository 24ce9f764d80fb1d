/-
  EvolvingGraph.Proofs.Table.Columns
  ──────────────────────────────────
  **WHAT IS LEFT OF A CELL WHEN ITS COLUMN IS GIVEN ONE TYPE.**

  A column is given one type where that is possible, and this can change its
  cells: whole numbers become doubles, and what is missing becomes NaN.  A cell
  that holds text, a truth value, a double or a whole number that a double holds
  too is still equal to what it was, whatever else stands in its column; and a
  cell without a value stays one.

  Main statements:
    * `isFirm_of_key?_eq` — being such a value is a matter of the key;
    * `equals_of_key?_eq` — such values are equal if their keys are;
    * `normalised_shown` — the three things that become of the cells of a column;
    * `normalised_kept` — no cell of a column is lost.
-/
import EvolvingGraph.Proofs.Binary64.WholeNumbers
import EvolvingGraph.Proofs.Value.Comparison
import EvolvingGraph.Table.Column

namespace EvolvingGraph

/-! ## §1. Values that a column can hold. -/

namespace Value

/-- Text, truth values, doubles but NaN, and whole numbers below 2⁵³. -/
def IsPlain : Value → Prop
  | .str _ | .bool _ | .float _ => True
  | .int n => n.natAbs < twoTo 53
  | _ => False

/-- Text, truth values, doubles but NaN, and whole numbers that are doubles, too. -/
def IsFirm : Value → Prop
  | .str _ | .bool _ | .float _ => True
  | .int n => Real64.Holds n
  | _ => False

variable {v w : Value}

theorem IsPlain.isFirm (h : v.IsPlain) : v.IsFirm := by
  cases v with
  | int n => exact Real64.holds_of_lt h
  | str s => trivial
  | bool b => trivial
  | float x => trivial
  | _ => exact absurd h (by simp [IsPlain])

/-- A firm value has a key that no NaN is part of. -/
theorem IsFirm.exists_key (h : v.IsFirm) : ∃ k, v.key? = some k ∧ k.isNaNFree = true := by
  cases v with
  | float x =>
    refine ⟨_, rfl, ?_⟩
    split <;> rfl
  | int n => exact ⟨_, rfl, rfl⟩
  | str s => exact ⟨_, rfl, rfl⟩
  | bool b => exact ⟨_, rfl, rfl⟩
  | _ => exact absurd h (by simp [IsFirm])

theorem IsFirm.isMissing (h : v.IsFirm) : Column.isMissing v = false := by
  cases v <;> first | rfl | exact absurd h (by simp [IsFirm])

theorem isNull_eq_false_of_isMissing (h : Column.isMissing v = false) : v.isNull = false := by
  cases v <;> first | rfl | exact absurd h (by simp [Column.isMissing])

/-- A whole number that has the key of a firm value is a double, too. -/
theorem IsFirm.holds {n : Int} (h : v.IsFirm) (hkey : v.key? = some (.int n)) :
    Real64.Holds n := by
  cases v with
  | int m =>
    obtain rfl : m = n := by simpa [key?] using hkey
    exact h
  | bool b =>
    obtain rfl : (if b then 1 else 0) = n := by simpa [key?] using hkey
    cases b
    · exact Real64.holds_of_lt (twoTo_pos 53)
    · exact Real64.holds_of_lt (by decide)
  | float x =>
    rw [key?, Option.some.injEq] at hkey
    split at hkey
    · next m hm =>
      obtain rfl := Key.int.inj hkey
      exact Real64.holds_of_toInt? hm
    · exact absurd hkey (by simp)
  | str s => exact absurd hkey (by simp [key?])
  | _ => exact absurd h (by simp [IsFirm])

/-- **Whether a value is firm can be told from its key.** -/
theorem isFirm_of_key?_eq (h : v.IsFirm) (hkey : w.key? = v.key?) : w.IsFirm := by
  have hkind : w.kind = .scalar := by
    obtain ⟨k, hk, hfree⟩ := h.exists_key
    rw [← kind_key (hkey.trans hk), kind_key hk]
    cases v <;> first | rfl | exact absurd h (by simp [IsFirm])
  cases w with
  | int n => exact h.holds hkey.symm
  | str s => trivial
  | bool b => trivial
  | float x => trivial
  | null =>
    -- nothing but "nothing" has its key
    have hnull : v.key? = some .null := hkey.symm
    cases v <;> simp only [IsFirm, key?, Option.some.injEq, reduceCtorEq] at h hnull
    split at hnull <;> exact absurd hnull (by simp)
  | nan mark =>
    rw [eq_nan_of_key hkey.symm] at h
    exact h.elim
  | _ => exact absurd hkind (by simp [kind])

/-- Firm values of one key are equal. -/
theorem equals_of_key?_eq (h : v.IsFirm) (hkey : w.key? = v.key?) : v.equals w = .ok true := by
  obtain ⟨k, hk, hfree⟩ := h.exists_key
  rw [equals_eq_decide hk (hkey.trans hk) hfree, decide_eq_true rfl]

end Value

namespace Column

/-! ## §2. Single cells. -/

/-- What a cell may become: a missing one stays missing, any other keeps its key. -/
structure Kept (v w : Value) : Prop where
  isMissing_eq : isMissing w = isMissing v
  key?_eq : isMissing v = false → w.key? = v.key?

theorem kept_refl (v : Value) : Kept v v := ⟨rfl, fun _ => rfl⟩

theorem kept_nan {v : Value} (h : isMissing v = true) (mark : Nat) : Kept v (.nan mark) :=
  ⟨h.symm, fun hpresent => absurd (h.symm.trans hpresent) (by simp)⟩

/-- What a cell shows of a value: the value itself, NaN if there is none, or the nearest
double if it is a whole number. -/
inductive Shown : Value → Value → Prop
  | same (v : Value) : Shown v v
  | gap {v : Value} (missing : isMissing v = true) (mark : Nat) : Shown v (.nan mark)
  | rounded (n : Int) : Shown (.int n) (.float (.round (n < 0) n.natAbs 1))

/-- A cell that shows a firm value has its key. -/
theorem Shown.kept {v w : Value} (h : Shown v w) (hfirm : isMissing v = false → v.IsFirm) :
    Kept v w := by
  cases h with
  | same => exact kept_refl v
  | gap missing mark => exact kept_nan missing mark
  | rounded n =>
    refine ⟨rfl, fun hpresent => ?_⟩
    show some _ = some _
    rw [Real64.toInt?_round (hfirm hpresent)]

/-- Among doubles stands a number, or a gap. -/
theorem shown_asDouble {v : Value} (hv : isMissing v = true ∨ isNumber v = true) (mark : Nat) :
    Shown v (asDouble mark v) := by
  cases v with
  | int n => exact .rounded n
  | float x => exact .same _
  | null => exact .gap rfl mark
  | nan mark' => exact .gap rfl mark
  | _ => exact absurd hv (by simp [isMissing, isNumber])

/-! ## §3. Whole columns. -/

section Columns

variable {cells : List Value}

theorem forall₂_mapIdx {α β : Type} {R : α → β → Prop} {items : List α} {f : Nat → α → β}
    (h : ∀ i, ∀ a ∈ items, R a (f i a)) : List.Forall₂ R items (items.mapIdx f) := by
  induction items generalizing f with
  | nil => exact .nil
  | cons a items ih =>
    rw [List.mapIdx_cons]
    exact .cons (h 0 a List.mem_cons_self)
      (ih fun i b hb => h (i + 1) b (List.mem_cons_of_mem _ hb))

/-- The cells with a value have all that the test tells of them. -/
theorem missing_or_of_all {p : Value → Bool} {v : Value} (hv : v ∈ cells)
    (hall : (cells.filter (!isMissing ·)).all p = true) : isMissing v = true ∨ p v = true := by
  cases hmissing : isMissing v with
  | true => exact .inl rfl
  | false => exact .inr (List.all_eq_true.1 hall v (List.mem_filter.2 ⟨hv, by simp [hmissing]⟩))

/-- **What becomes of the cells of a column that is given one type.** -/
theorem normalised_shown (firstMark : Nat) (cells : List Value) :
    List.Forall₂ Shown cells (normalised firstMark cells) := by
  have hunchanged : List.Forall₂ Shown cells cells := List.forall₂_same.2 fun v _ => .same v
  have hdoubles : (∀ v ∈ cells, isMissing v = true ∨ isNumber v = true) →
      List.Forall₂ Shown cells (cells.mapIdx fun row v => asDouble (firstMark + row) v) :=
    fun h => forall₂_mapIdx fun i v hv => shown_asDouble (h v hv) _
  simp only [normalised]
  split
  · next hempty =>
    -- nothing is there at all
    have hmissing : (cells.filter (!isMissing ·)).all (fun _ => false) = true := by
      rw [List.isEmpty_iff.1 hempty]
      rfl
    split
    · exact hunchanged
    · refine hdoubles fun v hv => .inl ?_
      simpa using missing_or_of_all hv hmissing
  · split
    · next hnumbers =>
      -- all that is there is numbers
      split
      · exact hunchanged
      · exact hdoubles fun v hv => missing_or_of_all hv hnumbers
    · -- among text the gaps are filled, anything else is left alone
      split
      · refine List.forall₂_map_right_iff.2 (List.forall₂_same.2 fun v _ => ?_)
        split
        · next hmissing => exact .gap hmissing 0
        · exact .same v
      · exact hunchanged

/-- **No cell of a column is lost when the column is given one type.** -/
theorem normalised_kept (firstMark : Nat) (hfirm : ∀ v ∈ cells, isMissing v = false → v.IsFirm) :
    List.Forall₂ Kept cells (normalised firstMark cells) := by
  have hshown := (List.forall₂_and_left _ _).2 ⟨hfirm, normalised_shown firstMark cells⟩
  exact hshown.imp fun v w h => h.2.kept h.1

/-- A whole number and a double with a gap between them: what is there stays equal to
what it was, and the gap stays a gap. -/
example : (normalised 7 [.int 3, .null, .float .one]).map (·.key?)
    = [some (.int 3), some (.nan 8), some (.int 1)] := by decide +kernel

end Columns

end Column
end EvolvingGraph
