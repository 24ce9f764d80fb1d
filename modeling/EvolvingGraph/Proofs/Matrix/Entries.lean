/-
  EvolvingGraph.Proofs.Matrix.Entries
  ───────────────────────────────────
  **THE ENTRIES OF A MATRIX THAT ARE NOT ZERO.**

  A matrix lists its entries row by row, and leaves out the zeros.  Such a list
  stands in a strict order, and two lists in that order are equal if they have
  the same members: so all that is said about lists of entries here is said
  about what they have at each position.  Two matrices have the same entries if
  they agree up to the signs of their zeros.  Where two entries face each other
  in a matrix without NaN, the greater of them and the smaller do not depend on
  which of the two comes first.

  Main statements:
    * `mem_nonzeroEntries`, `nonzeroEntries_before` — what is listed, and in which order;
    * `before_mergeSort` — entries at different positions are put into that order;
    * `eq_of_before` — the order and the members make the list;
    * `entry_ofEntries_nonzeroEntries` — a list of entries read as a matrix;
    * `faced_symmetric`, `mirrored_perm` — the symmetric form of a matrix.
-/
import Mathlib
import EvolvingGraph.Matrix.Dense

namespace EvolvingGraph

/-! ## §1. The order of entries. -/

namespace MatrixEntry

variable {e f d : MatrixEntry} {entries entries' : List MatrixEntry}

/-- In an earlier row, or earlier in the same row. -/
def Before (e f : MatrixEntry) : Prop := e.row < f.row ∨ (e.row = f.row ∧ e.column < f.column)

/-- The entry on the other side of the diagonal. -/
def transposed (e : MatrixEntry) : MatrixEntry := ⟨e.column, e.row, e.value⟩

theorem precedes_iff : e.precedes f = true
    ↔ e.row < f.row ∨ (e.row = f.row ∧ e.column ≤ f.column) := by
  simp [precedes]

theorem Before.precedes (h : e.Before f) : e.precedes f = true :=
  precedes_iff.2 (h.imp_right fun h => ⟨h.1, h.2.le⟩)

theorem Before.ne_position (h : e.Before f) : (e.row, e.column) ≠ (f.row, f.column) := by
  rw [Ne, Prod.mk.injEq]
  unfold Before at h
  omega

theorem position_eq (h : e.precedes f = true) (h' : f.precedes e = true) :
    e.row = f.row ∧ e.column = f.column := by
  rw [precedes_iff] at h h'
  omega

theorem precedes_trans (h : e.precedes f = true) (h' : f.precedes d = true) :
    e.precedes d = true := by
  rw [precedes_iff] at *
  omega

theorem precedes_total (e f : MatrixEntry) : (e.precedes f || f.precedes e) = true := by
  rw [Bool.or_eq_true, precedes_iff, precedes_iff]
  omega

/-- Entries in strict order are known by their positions. -/
theorem eq_of_position (h : entries.Pairwise Before) (he : e ∈ entries) (hf : f ∈ entries)
    (hrow : e.row = f.row) (hcolumn : e.column = f.column) : e = f := by
  have hnodup : (entries.map fun e => (e.row, e.column)).Nodup :=
    List.pairwise_map.2 (h.imp Before.ne_position)
  exact List.inj_on_of_nodup_map hnodup he hf (Prod.ext hrow hcolumn)

theorem nodup_of_before (h : entries.Pairwise Before) : entries.Nodup :=
  h.imp fun hbefore heq => hbefore.ne_position (by rw [heq])

/-- **Entries are put into the order that they have if they are strictly ordered.** -/
theorem mergeSort_eq_of_perm (h : entries.Pairwise Before) (hperm : entries'.Perm entries) :
    entries'.mergeSort precedes = entries := by
  have hsame := (List.mergeSort_perm entries' precedes).trans hperm
  have hsorted : (entries'.mergeSort precedes).Pairwise fun e f => e.precedes f = true :=
    @List.pairwise_mergeSort _ precedes (fun _ _ _ => precedes_trans) precedes_total entries'
  refine List.Perm.eq_of_pairwise (fun e f he hf hef hfe => ?_) hsorted (h.imp Before.precedes) hsame
  obtain ⟨hrow, hcolumn⟩ := position_eq hef hfe
  exact eq_of_position h (hsame.mem_iff.1 he) hf hrow hcolumn

/-- **Entries at different positions are put into strict order.** -/
theorem before_mergeSort (h : entries.Pairwise fun e f => ¬(e.row = f.row ∧ e.column = f.column)) :
    (entries.mergeSort precedes).Pairwise Before := by
  have hsorted : (entries.mergeSort precedes).Pairwise fun e f => e.precedes f = true :=
    @List.pairwise_mergeSort _ precedes (fun _ _ _ => precedes_trans) precedes_total entries
  have hapart := ((List.mergeSort_perm entries precedes).pairwise_iff
    fun hne hsame => hne ⟨hsame.1.symm, hsame.2.symm⟩).2 h
  refine (hsorted.and hapart).imp fun {e f} hef => ?_
  obtain ⟨hprecedes, hne⟩ := hef
  rw [precedes_iff] at hprecedes
  unfold Before
  omega

/-- Entries in strict order are determined by what they are. -/
theorem eq_of_before (h : entries.Pairwise Before) (h' : entries'.Pairwise Before)
    (hmem : ∀ e, e ∈ entries ↔ e ∈ entries') : entries = entries' := by
  have hperm : entries.Perm entries' :=
    (List.perm_ext_iff_of_nodup (nodup_of_before h) (nodup_of_before h')).2 hmem
  rw [← mergeSort_eq_of_perm h (.refl entries), mergeSort_eq_of_perm h' hperm]

end MatrixEntry

/-! ## §2. Zeros. -/

namespace Double

/-- A zero without its sign; all else as it is. -/
def cleared (x : Double) : Double := if x.isZero then .zero else x

theorem cleared_of_isZero {x : Double} (h : x.isZero = true) : x.cleared = .zero := if_pos h

theorem cleared_of_not_isZero {x : Double} (h : x.isZero = false) : x.cleared = x :=
  if_neg (by rw [h]; exact Bool.false_ne_true)

theorem isZero_cleared (x : Double) : x.cleared.isZero = x.isZero := by
  cases h : x.isZero with
  | true => rw [cleared_of_isZero h]; rfl
  | false => rw [cleared_of_not_isZero h, h]

theorem cleared_cleared (x : Double) : x.cleared.cleared = x.cleared := by
  cases h : x.isZero with
  | true => rw [cleared_of_isZero h]; rfl
  | false => rw [cleared_of_not_isZero h, cleared_of_not_isZero h]

/-- What is not zero is not changed, and nothing else becomes it. -/
theorem cleared_eq_iff {x y : Double} (hy : y.isZero = false) : x.cleared = y ↔ x = y := by
  constructor
  · rintro rfl
    rw [isZero_cleared] at hy
    exact (cleared_of_not_isZero hy).symm
  · rintro rfl
    exact cleared_of_not_isZero hy

/-- Numbers of equal standing differ in the sign of a zero at most. -/
theorem cleared_eq_of_rank_eq {x y : Real64} (h : x.rank = y.rank) :
    (Double.real x).cleared = (Double.real y).cleared := by
  obtain ⟨s, n, hn⟩ := x
  obtain ⟨s', n', hn'⟩ := y
  have hsame : n = n' ∧ (n = 0 ∨ s = s') := by
    cases s <;> cases s' <;> simp [Real64.rank] at h ⊢ <;> omega
  obtain ⟨rfl, rfl | rfl⟩ := hsame
  · rfl
  · rfl

end Double

open MatrixEntry (Before)

namespace DenseMatrix

variable {m m' : DenseMatrix}

/-! ## §3. The entries of a matrix. -/

theorem mem_nonzeroEntries {e : MatrixEntry} : e ∈ m.nonzeroEntries
    ↔ e.row < m.rows ∧ e.column < m.columns ∧ m.entry e.row e.column = e.value
      ∧ e.value.isZero = false := by
  unfold nonzeroEntries
  simp only [List.mem_flatMap, List.mem_range, List.mem_filter, List.mem_map, Bool.not_eq_true']
  constructor
  · rintro ⟨i, hi, ⟨j, hj, rfl⟩, hzero⟩
    exact ⟨hi, hj, rfl, hzero⟩
  · rintro ⟨hrow, hcolumn, hvalue, hzero⟩
    exact ⟨e.row, hrow, ⟨e.column, hcolumn, by rw [hvalue]⟩, hzero⟩

theorem nonzeroEntries_before (m : DenseMatrix) : m.nonzeroEntries.Pairwise Before := by
  unfold nonzeroEntries
  refine List.pairwise_flatMap.2 ⟨fun i _ => ?_, ?_⟩
  · -- within a row they stand by columns
    refine (List.pairwise_map.2 ?_).filter _
    exact List.pairwise_lt_range.imp fun h => .inr ⟨rfl, h⟩
  · -- the rows come one after the other
    refine List.pairwise_lt_range.imp fun {i i'} hi e he e' he' => .inl ?_
    obtain ⟨j, -, rfl⟩ := List.mem_map.1 (List.mem_filter.1 he).1
    obtain ⟨j', -, rfl⟩ := List.mem_map.1 (List.mem_filter.1 he').1
    exact hi

/-- Matrices that agree up to the signs of their zeros have the same entries. -/
theorem nonzeroEntries_congr (hrows : m.rows = m'.rows) (hcolumns : m.columns = m'.columns)
    (h : ∀ i < m.rows, ∀ j < m.columns, (m.entry i j).cleared = (m'.entry i j).cleared) :
    m.nonzeroEntries = m'.nonzeroEntries := by
  refine MatrixEntry.eq_of_before m.nonzeroEntries_before m'.nonzeroEntries_before fun e => ?_
  rw [mem_nonzeroEntries, mem_nonzeroEntries, ← hrows, ← hcolumns]
  refine and_congr_right fun hrow => and_congr_right fun hcolumn => and_congr_left fun hzero => ?_
  rw [← Double.cleared_eq_iff hzero, h e.row hrow e.column hcolumn, Double.cleared_eq_iff hzero]

/-! ## §4. Entries as a matrix. -/

section OfEntries

variable {s : SparseMatrix} {i j : Nat}

theorem entry_ofEntries_of_mem (h : s.entries.Pairwise Before) {e : MatrixEntry}
    (he : e ∈ s.entries) : (ofEntries s).entry e.row e.column = e.value := by
  -- no two of the entries stand at one position
  have honly : (s.entries.filter fun f => f.row == e.row && f.column == e.column) = [e] := by
    refine MatrixEntry.eq_of_before (h.filter _) (List.pairwise_singleton ..) fun f => ?_
    rw [List.mem_filter, List.mem_singleton, Bool.and_eq_true, beq_iff_eq, beq_iff_eq]
    constructor
    · rintro ⟨hf, hrow, hcolumn⟩
      exact MatrixEntry.eq_of_position h hf he hrow hcolumn
    · rintro rfl
      exact ⟨he, rfl, rfl⟩
  unfold ofEntries
  simp only [honly]
  rfl

theorem entry_ofEntries_of_not_mem (h : ∀ e ∈ s.entries, ¬(e.row = i ∧ e.column = j)) :
    (ofEntries s).entry i j = .zero := by
  have hnone : (s.entries.filter fun f => f.row == i && f.column == j) = [] := by
    rw [List.filter_eq_nil_iff]
    intro e he hmatch
    rw [Bool.and_eq_true, beq_iff_eq, beq_iff_eq] at hmatch
    exact h e he hmatch
  unfold ofEntries
  simp only [hnone]
  rfl

/-- Read as a matrix, the entries of a matrix give it back, up to the signs of zeros. -/
theorem entry_ofEntries_nonzeroEntries (hi : i < m.rows) (hj : j < m.columns) :
    (ofEntries ⟨m.rows, m.columns, m.nonzeroEntries⟩).entry i j
      = (m.entry i j).cleared := by
  unfold Double.cleared
  cases hzero : (m.entry i j).isZero with
  | false =>
    have hmem : (⟨i, j, m.entry i j⟩ : MatrixEntry) ∈ m.nonzeroEntries :=
      mem_nonzeroEntries.2 ⟨hi, hj, rfl, hzero⟩
    exact entry_ofEntries_of_mem (s := ⟨m.rows, m.columns, _⟩) m.nonzeroEntries_before hmem
  | true =>
    refine entry_ofEntries_of_not_mem fun e he => ?_
    rintro ⟨rfl, rfl⟩
    obtain ⟨-, -, hvalue, hnonzero⟩ := mem_nonzeroEntries.1 he
    rw [← hvalue, hzero] at hnonzero
    exact absurd hnonzero (by simp)

end OfEntries

/-! ## §5. Facing entries. -/

/-- The symmetric form of a matrix, with nothing on the diagonal. -/
def faced (m : DenseMatrix) (way : Symmetrisation) : DenseMatrix :=
  { m with entry := fun i j =>
      if i = j then .zero else way.combine (m.entry i j) (m.entry j i) }

theorem Symmetrisation.combine_self {way : Symmetrisation} (hway : way ≠ .average) (x : Double) :
    way.combine x x = x := by
  cases way with
  | maximum => exact ite_self x
  | minimum => exact ite_self x
  | average => exact absurd rfl hway

/-- Of two numbers the greater, or the smaller, does not depend on their order. -/
theorem Symmetrisation.combine_comm {way : Symmetrisation} (hway : way ≠ .average)
    {x y : Double} (hx : x ≠ .nan) (hy : y ≠ .nan) :
    (way.combine y x).cleared = (way.combine x y).cleared := by
  cases x with
  | nan => exact absurd rfl hx
  | real x =>
  cases y with
  | nan => exact absurd rfl hy
  | real y =>
  -- if neither is less they differ in the sign of a zero at most
  have hequal : ¬x < y → ¬y < x → (Double.real y).cleared = (Double.real x).cleared := by
    intro hxy hyx
    rw [Real64.lt_iff_rank] at hxy hyx
    exact Double.cleared_eq_of_rank_eq (by omega)
  have hlt : ¬(x < y ∧ y < x) := by
    rw [Real64.lt_iff_rank, Real64.lt_iff_rank]
    omega
  cases way with
  | average => exact absurd rfl hway
  | maximum | minimum =>
    simp only [combine, Double.less, decide_eq_true_eq]
    by_cases hxy : x < y <;> by_cases hyx : y < x <;> simp only [hxy, hyx, if_true, if_false]
    · exact absurd ⟨hxy, hyx⟩ hlt
    · exact hequal hxy hyx

/-- Facing entries of the symmetric form are the same. -/
theorem faced_symmetric {way : Symmetrisation} (hway : way ≠ .average) {i j : Nat}
    (hij : m.entry i j ≠ .nan) (hji : m.entry j i ≠ .nan) :
    ((m.faced way).entry j i).cleared = ((m.faced way).entry i j).cleared := by
  by_cases hdiagonal : i = j
  · rw [hdiagonal]
  · simp only [faced, if_neg hdiagonal, if_neg (Ne.symm hdiagonal)]
    exact Symmetrisation.combine_comm hway hij hji

/-- **A symmetric matrix without a diagonal is what stands above the diagonal,
and the same once more below.** -/
theorem mirrored_perm (hsquare : m.rows = m.columns)
    (hsymmetric : ∀ i < m.rows, ∀ j < m.rows, (m.entry j i).cleared = (m.entry i j).cleared)
    (hdiagonal : ∀ i < m.rows, (m.entry i i).isZero = true) :
    ((m.nonzeroEntries.filter fun e => e.row < e.column).flatMap fun e => [e, e.transposed]).Perm
      m.nonzeroEntries := by
  have hmirror : ∀ e ∈ m.nonzeroEntries, e.transposed ∈ m.nonzeroEntries := by
    intro e he
    obtain ⟨hrow, hcolumn, hvalue, hzero⟩ := mem_nonzeroEntries.1 he
    rw [← hsquare] at hcolumn
    refine mem_nonzeroEntries.2 ⟨hcolumn, hsquare ▸ hrow, ?_, hzero⟩
    show m.entry e.column e.row = e.value
    rw [← Double.cleared_eq_iff hzero, hsymmetric e.row hrow e.column hcolumn, hvalue,
      Double.cleared_of_not_isZero hzero]
  have hoff : ∀ e ∈ m.nonzeroEntries, e.row ≠ e.column := by
    intro e he heq
    obtain ⟨hrow, -, hvalue, hzero⟩ := mem_nonzeroEntries.1 he
    rw [← heq] at hvalue
    rw [← hvalue, hdiagonal e.row hrow] at hzero
    exact absurd hzero (by simp)
  have hnodup := MatrixEntry.nodup_of_before m.nonzeroEntries_before
  -- below the diagonal stand the entries that face those above
  have hbelow : ((m.nonzeroEntries.filter fun e => e.row < e.column).map
      MatrixEntry.transposed).Perm (m.nonzeroEntries.filter fun e => !decide (e.row < e.column)) := by
    refine (List.perm_ext_iff_of_nodup ((hnodup.filter _).map fun e f heq => ?_)
      (hnodup.filter _)).2 fun e => ?_
    · exact congrArg MatrixEntry.transposed heq
    simp only [List.mem_map, List.mem_filter, decide_eq_true_eq, Bool.not_eq_true',
      decide_eq_false_iff_not]
    constructor
    · rintro ⟨f, ⟨hf, hlt⟩, rfl⟩
      exact ⟨hmirror f hf, Nat.not_lt.2 hlt.le⟩
    · rintro ⟨he, hle⟩
      exact ⟨e.transposed, ⟨hmirror e he,
        lt_of_le_of_ne (Nat.not_lt.1 hle) (Ne.symm (hoff e he))⟩, rfl⟩
  have hsplit := List.filter_append_perm (fun e : MatrixEntry => e.row < e.column) m.nonzeroEntries
  have hpairs := List.flatMap_append_perm (m.nonzeroEntries.filter fun e => e.row < e.column)
    (fun e => [e]) fun e => [e.transposed]
  refine hpairs.symm.trans (List.Perm.trans ?_ hsplit)
  rw [List.flatMap_singleton', ← List.map_eq_flatMap]
  exact hbelow.append_left _

end DenseMatrix
end EvolvingGraph
