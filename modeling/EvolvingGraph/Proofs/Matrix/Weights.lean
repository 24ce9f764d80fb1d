/-
  EvolvingGraph.Proofs.Matrix.Weights
  ───────────────────────────────────
  **THE TWO WAYS IN WHICH A WEIGHT IS READ.**

  The weight of an edge is read by itself, for the forests, or with all others,
  for the adjacency matrix.  What is a number by itself is the same number in the
  matrix, and an attribute that is not there counts 1 in either.  But an attribute
  that is there and holds nothing, which counts 1 by itself too, makes NaN in the
  matrix, and no matrix at all if its edge is a loop without direction.

  Main statements:
    * `Coherent.edgeWeight_eq_ok_iff` — what a weight is, read by itself;
    * `Coherent.number_of_edgeWeight`, `number_of_weighsNothing` — what it is in a matrix;
    * `adjacency_reads_weights` — where the two agree, and where they do not.
-/
import EvolvingGraph.Proofs.Matrix.Drawing
import EvolvingGraph.Forest.Selection

namespace EvolvingGraph

/-! ## §1. Single values. -/

namespace Value

variable {v : Value} {x : Real64}

theorem readWeight_int (n : Int) : (Value.int n).readWeight = match Real64.ofInt? n with
    | some x => .number x
    | none => .tooLarge := rfl

theorem readWeight_eq_missing_iff : v.readWeight = .missing ↔ v = .null := by
  cases v with
  | int n =>
    rw [readWeight_int]
    split <;> simp
  | _ => simp [readWeight]

/-- What is a number as a weight converts to this number, and has a negative. -/
theorem toDouble_of_readWeight (h : v.readWeight = .number x) :
    v.toDouble = .ok (.real x) ∧ v.isNegatable = true := by
  cases v with
  | int n =>
    rw [readWeight_int] at h
    split at h
    · next y hy =>
      obtain rfl := WeightReading.number.inj h
      refine ⟨?_, rfl⟩
      show doubleOfInt n = _
      unfold doubleOfInt
      rw [hy]
    · exact absurd h (by simp)
  | float y =>
    obtain rfl := WeightReading.number.inj h
    exact ⟨rfl, rfl⟩
  | _ => exact absurd h (by simp [readWeight])

end Value

/-- The attribute of this name is there, and holds nothing. -/
def EdgeRecord.WeighsNothing (r : EdgeRecord) (k : Key) : Prop := r.attributes.get? k = some .null

namespace Graph

variable {g : Graph} {r : EdgeRecord} {name : String} {w : Option Real64}

/-! ## §2. Single edges. -/

theorem Coherent.readAttribute_record (hg : g.Coherent) (hr : r ∈ g.records) (name : String)
    (default : Value) : g.readAttribute .edge r.name.value (.str name) default
      = .ok ((r.attributes.get? (.text name)).getD default) := by
  obtain ⟨e, he, rfl⟩ := List.mem_map.1 hr
  unfold readAttribute
  rw [show g.attributesOf .edge (g.recordOf e).name.value = .ok (g.recordOf e).attributes from
    hg.edgeAttributes_eq he]
  rfl

/-- **What the weight of an edge is, read by itself**: none where the attribute is not
there or holds nothing, else the number that it holds. -/
theorem Coherent.edgeWeight_eq_ok_iff (hg : g.Coherent) (hr : r ∈ g.records) :
    g.edgeWeight r.name.value (.str name) = .ok w
      ↔ (w = none ∧ (r.attributes.get? (.text name) = none ∨ r.WeighsNothing (.text name)))
        ∨ ∃ v x, w = some x ∧ r.attributes.get? (.text name) = some v
          ∧ v.readWeight = .number x := by
  unfold edgeWeight EdgeRecord.WeighsNothing
  rw [hg.readAttribute_record hr]
  simp only [bind, Except.bind]
  cases hget : r.attributes.get? (.text name) with
  | none => simp [Value.readWeight, pure, Except.pure, eq_comm]
  | some v =>
    simp only [Option.getD_some]
    cases hread : v.readWeight with
    | missing =>
      obtain rfl := Value.readWeight_eq_missing_iff.1 hread
      simp [pure, Except.pure, eq_comm, hread]
    | number x =>
      have hnull : v ≠ .null := fun h =>
        absurd ((Value.readWeight_eq_missing_iff.2 h).symm.trans hread) (by simp)
      simp [pure, Except.pure, eq_comm, hread, hnull]
    | _ =>
      have hnull : v ≠ .null := fun h =>
        absurd ((Value.readWeight_eq_missing_iff.2 h).symm.trans hread) (by simp)
      simp [throw, throwThe, MonadExceptOf.throw, hread, hnull]

/-- **A weight that does not hold nothing is the same number in a matrix.** -/
theorem Coherent.number_of_edgeWeight (hg : g.Coherent) (hr : r ∈ g.records)
    (hw : g.edgeWeight r.name.value (.str name) = .ok w)
    (hholds : ¬r.WeighsNothing (.text name)) :
    (Attributes.weight r.attributes (.text name)).toDouble = .ok (.real (w.getD .one))
      ∧ (Attributes.weight r.attributes (.text name)).isNegatable = true := by
  obtain ⟨rfl, hnone | hnothing⟩ | ⟨v, x, rfl, hget, hread⟩ := (hg.edgeWeight_eq_ok_iff hr).1 hw
  · unfold Attributes.weight
    rw [hnone]
    exact ⟨by decide +kernel, rfl⟩
  · exact absurd hnothing hholds
  · unfold Attributes.weight
    rw [hget]
    exact Value.toDouble_of_readWeight hread

/-- **A weight that holds nothing makes NaN in a matrix**, and has no negative. -/
theorem number_of_weighsNothing (h : r.WeighsNothing (.text name)) :
    (Attributes.weight r.attributes (.text name)).toDouble = .ok .nan
      ∧ (Attributes.weight r.attributes (.text name)).isNegatable = false := by
  unfold Attributes.weight
  rw [show r.attributes.get? (.text name) = some .null from h]
  exact ⟨rfl, rfl⟩

end Graph

/-! ## §3. The matrix. -/

/-- A matrix has read the weights of a graph: it has one entry at a position; for an edge
that is no loop it holds the number that the weight of the edge is, by itself, but NaN where
the weight holds nothing, which by itself counts as none. -/
structure SparseMatrix.ReadsWeights (m : SparseMatrix) (g : Graph) (name : String) : Prop where
  before : m.entries.Pairwise MatrixEntry.Before
  same : ∀ r ∈ g.records, ¬r.IsLoop → ¬r.WeighsNothing (.text name) →
    ∀ w, g.edgeWeight r.name.value (.str name) = .ok w →
      ∀ e ∈ g.cells r (.real (w.getD .one)), e ∈ m.entries
  void : ∀ r ∈ g.records, ¬r.IsLoop → r.WeighsNothing (.text name) →
    g.edgeWeight r.name.value (.str name) = .ok none ∧ ∀ e ∈ g.cells r .nan, e ∈ m.entries

namespace Graph

variable {g : Graph} {r : EdgeRecord} {name : String}

/-- Where all weights are accepted, only those that hold nothing hinder the matrix. -/
theorem Coherent.hindersAt_iff (hg : g.Coherent) (hr : r ∈ g.records)
    (haccepted : ∃ w, g.edgeWeight r.name.value (.str name) = .ok w) :
    g.HindersAt (.text name) r.link
      ↔ g.directed = false ∧ r.IsLoop ∧ r.WeighsNothing (.text name) := by
  obtain ⟨w, hw⟩ := haccepted
  have hloop : r.link.isLoop = true ↔ r.IsLoop := beq_iff_eq
  refine and_congr_right fun _ => and_congr hloop ?_
  show (Attributes.weight r.attributes (.text name)).isNegatable = false ↔ _
  by_cases hnothing : r.WeighsNothing (.text name)
  · exact iff_of_true (number_of_weighsNothing hnothing).2 hnothing
  · refine iff_of_false ?_ hnothing
    rw [(hg.number_of_edgeWeight hr hw hnothing).2]
    exact Bool.noConfusion

/-- What the matrix stores for an edge that is no loop. -/
theorem drawnNumber_eq {x : Double} (hloop : ¬r.IsLoop)
    (hx : (Attributes.weight r.attributes (.text name)).toDouble = .ok x) :
    g.drawnNumber (.text name) r = x := by
  rw [drawnNumber_of_not_isLoop hloop]
  unfold Attributes.number
  rw [hx]

/-- The entries of an edge are in a matrix that draws it. -/
theorem mem_of_draws {m : SparseMatrix} {number : EdgeRecord → Double} (h : m.Draws g number)
    (hr : r ∈ g.records) {e : MatrixEntry} (he : e ∈ g.cells r (number r)) : e ∈ m.entries :=
  h.entries.mem_iff.2 (List.mem_flatMap.2 ⟨r, hr, he⟩)

/-- Where all weights are accepted and none of them hinders it, there is a matrix. -/
theorem Coherent.exists_draws_of_accepted (hg : g.Coherent)
    (haccepted : ∀ r ∈ g.records, ∃ w, g.edgeWeight r.name.value (.str name) = .ok w)
    (hfree : ∀ r ∈ g.records,
      ¬(g.directed = false ∧ r.IsLoop ∧ r.WeighsNothing (.text name))) :
    ∃ m, g.adjacency (.str name) = .ok m ∧ m.Draws g (g.drawnNumber (.text name)) := by
  refine hg.exists_draws (Network.weighs_text name) (fun r hr => ?_)
    fun r hr => mt (hg.hindersAt_iff hr (haccepted r hr)).1 (hfree r hr)
  obtain ⟨w, hw⟩ := haccepted r hr
  by_cases hnothing : r.WeighsNothing (.text name)
  · exact ⟨_, (number_of_weighsNothing hnothing).1⟩
  · exact ⟨_, (hg.number_of_edgeWeight hr hw hnothing).1⟩

/-- What such a matrix holds for an edge whose weight holds nothing. -/
theorem mem_of_weighsNothing {m : SparseMatrix} (h : m.Draws g (g.drawnNumber (.text name)))
    (hr : r ∈ g.records) (hloop : ¬r.IsLoop) (hnothing : r.WeighsNothing (.text name)) :
    ∀ e ∈ g.cells r .nan, e ∈ m.entries := by
  intro e he
  rw [← drawnNumber_eq hloop (number_of_weighsNothing hnothing).1] at he
  exact mem_of_draws h hr he

/-- **Where the weights of all edges are accepted one by one, the matrix holds the same
numbers**, but for the weights that hold nothing: they make NaN, or no matrix at all if one of
them is that of a loop without direction. -/
theorem adjacency_reads_weights (hg : g.Coherent) (name : String)
    (haccepted : ∀ r ∈ g.records, ∃ w, g.edgeWeight r.name.value (.str name) = .ok w) :
    ((∃ r ∈ g.records, g.directed = false ∧ r.IsLoop ∧ r.WeighsNothing (.text name)) →
        g.adjacency (.str name) = .error (.conversion .wrongType))
      ∧ ((∀ r ∈ g.records, ¬(g.directed = false ∧ r.IsLoop ∧ r.WeighsNothing (.text name))) →
        ∃ m, g.adjacency (.str name) = .ok m ∧ m.ReadsWeights g name) := by
  constructor
  · rintro ⟨r, hr, hhinders⟩
    refine Network.adjacency_eq_error hg.exists_met (Network.weighs_text name) ⟨r.link, ?_,
      (hg.hindersAt_iff hr (haccepted r hr)).2 hhinders⟩
    rw [hg.links_records]
    exact List.mem_map_of_mem hr
  · intro hfree
    obtain ⟨m, hm, hdraws⟩ := hg.exists_draws_of_accepted haccepted hfree
    refine ⟨m, hm, hdraws.before, ?_, ?_⟩
    · intro r hr hloop hholds w hw e he
      rw [← drawnNumber_eq hloop (hg.number_of_edgeWeight hr hw hholds).1] at he
      exact mem_of_draws hdraws hr he
    · intro r hr hloop hnothing
      exact ⟨(hg.edgeWeight_eq_ok_iff hr).2 (.inl ⟨rfl, .inr hnothing⟩),
        mem_of_weighsNothing hdraws hr hloop hnothing⟩

/-- Three edges: the weight of one holds nothing, one weighs 3, and a loop has no weight. -/
def partlyWeighed : Graph :=
  (empty false).applied
    [.addNode (.int 1), .addNode (.int 2), .addNode (.int 3),
      .addEdge (.str "void") (.int 1) (.int 2),
      .setAttribute .edge (.str "void") (.str "weight") .null,
      .addEdge (.str "heavy") (.int 2) (.int 3),
      .setAttribute .edge (.str "heavy") (.str "weight") (.int 3),
      .addEdge (.str "bare") (.int 3) (.int 3)]

theorem reachable_partlyWeighed : partlyWeighed.Reachable :=
  (Reachable.empty false).applied (by simp)

theorem accepted_partlyWeighed : ∀ r ∈ partlyWeighed.records,
    ∃ w, partlyWeighed.edgeWeight r.name.value (.str "weight") = .ok w := by
  have hthree : (Value.int 3).readWeight = .number (.round false 3 1) := by
    rw [Value.readWeight_int, show Real64.ofInt? 3 = some (.round false 3 1) by decide +kernel]
  have hheavy : ∀ r ∈ partlyWeighed.records, r.attributes.get? (.text "weight") = some (.int 3) →
      ∃ w, partlyWeighed.edgeWeight r.name.value (.str "weight") = .ok w := fun r hr hget =>
    ⟨_, (reachable_partlyWeighed.coherent.edgeWeight_eq_ok_iff hr).2
      (.inr ⟨_, _, rfl, hget, hthree⟩)⟩
  exact List.forall_mem_cons.2 ⟨⟨none, rfl⟩, List.forall_mem_cons.2
    ⟨hheavy _ (List.mem_cons_of_mem _ List.mem_cons_self) rfl,
      List.forall_mem_singleton.2 ⟨none, rfl⟩⟩⟩

theorem free_partlyWeighed : ∀ r ∈ partlyWeighed.records,
    ¬(partlyWeighed.directed = false ∧ r.IsLoop ∧ r.WeighsNothing (.text "weight")) :=
  List.forall_mem_cons.2 ⟨fun h => absurd h.2.1 (by decide), List.forall_mem_cons.2
    ⟨fun h => absurd h.2.1 (by decide), List.forall_mem_singleton.2 fun h =>
      absurd (show none = some Value.null from h.2.2) (by simp)⟩⟩

theorem adjacency_reads_weights_partlyWeighed :
    (∀ r ∈ partlyWeighed.records,
        ∃ w, partlyWeighed.edgeWeight r.name.value (.str "weight") = .ok w)
      ∧ (∀ r ∈ partlyWeighed.records,
        ¬(partlyWeighed.directed = false ∧ r.IsLoop ∧ r.WeighsNothing (.text "weight")))
      ∧ ∃ m, partlyWeighed.adjacency (.str "weight") = .ok m
        ∧ m.ReadsWeights partlyWeighed "weight" :=
  ⟨accepted_partlyWeighed, free_partlyWeighed,
    (adjacency_reads_weights reachable_partlyWeighed.coherent "weight" accepted_partlyWeighed).2
      free_partlyWeighed⟩

/-- The weight that holds nothing counts 1 by itself, and is NaN in the matrix. -/
theorem adjacency_differs_partlyWeighed :
    partlyWeighed.Reachable
      ∧ (∀ r ∈ partlyWeighed.records,
        ∃ w, partlyWeighed.edgeWeight r.name.value (.str "weight") = .ok w)
      ∧ partlyWeighed.edgeWeight (.str "void") (.str "weight") = .ok none
      ∧ ∃ m, partlyWeighed.adjacency (.str "weight") = .ok m
        ∧ ∀ x, (⟨0, 1, x⟩ : MatrixEntry) ∈ m.entries ↔ x = .nan := by
  obtain ⟨m, hm, hdraws⟩ := reachable_partlyWeighed.coherent.exists_draws_of_accepted
    accepted_partlyWeighed free_partlyWeighed
  have hnan : (⟨0, 1, .nan⟩ : MatrixEntry) ∈ m.entries :=
    mem_of_weighsNothing hdraws (r := partlyWeighed.records.head (by decide)) (List.head_mem _)
      (by decide) rfl _ (by decide)
  refine ⟨reachable_partlyWeighed, accepted_partlyWeighed, rfl, m, hm, fun x => ?_⟩
  constructor
  · intro hx
    exact congrArg MatrixEntry.value (MatrixEntry.eq_of_position hdraws.before hx hnan rfl rfl)
  · rintro rfl
    exact hnan

end Graph
end EvolvingGraph
